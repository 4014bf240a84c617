import Lounge.Revgen.CouchRevgen
import Lounge.Storage.BdbDriver

/-!
# The document API

`api/api.c` over a storage driver, a codec, and a compressor that a host may have.
Documents are codec values; what is stored of one is its dump without the
members that name its key and revision.
-/

namespace LoungeApi
open FlatMemory ObjectStore CodecValue CouchRevgen BdbDriver
open LaCodecValue (laCodecIsTrue laCodecStringValue)

/-- `LA_API_KEY_NAME`, `_id`. -/
def laApiKeyName : CString := ⟨[95, 105, 100], by decide⟩

/-- `LA_API_REV_NAME`, `_rev`. -/
def laApiRevName : CString := ⟨[95, 114, 101, 118], by decide⟩

/-- `LA_API_DELETED_NAME`, `_deleted`. -/
def laApiDeletedName : CString := ⟨[95, 100, 101, 108, 101, 116, 101, 100], by decide⟩

/-- `la_codec_dump_callback` into a buffer and `la_codec_loadb`. -/
structure CodecLib where
  dump : LaCodecValue → Option (List UInt8)
  loadb : List UInt8 → Option LaCodecValue

/-- `la_compressor_t`. -/
structure LaCompressor where
  compressor : List UInt8 → Option (List UInt8)
  decompressor : List UInt8 → Option (List UInt8)

/-- `la_host`, with the codec and the revision generator linked into the program. -/
structure LaHost where
  codec : CodecLib
  revgen : RevgenLib
  compressor : Option LaCompressor

/-- `la_db` over a store of type `σ`. -/
structure LaDb (σ : Type) where
  host : LaHost
  driver : LaObjectStoreDriver σ

/-- The allocations of one call, the memory behind the object it creates, and what
`string_randhex` would make up as a key. -/
structure ApiCalls where
  copied : Bool := true
  buffer : Bool := true
  created : Bool := true
  heap : Memory := fun _ => 0
  randhex : CString := CString.ofBytes (List.replicate 64 48)

inductive LaDbGetResult where
  | ok | notFound | error
  deriving DecidableEq

inductive LaDbPutResult where
  | ok | conflict | invalidArg | error
  deriving DecidableEq

inductive LaDbDeleteResult where
  | ok | conflict | error
  deriving DecidableEq

def LaHost.deflate (host : LaHost) (data : List UInt8) : Option (List UInt8) :=
  match host.compressor with
  | none => some data
  | some c => c.compressor data

def LaHost.inflate (host : LaHost) (data : List UInt8) : Option (List UInt8) :=
  match host.compressor with
  | none => some data
  | some c => c.decompressor data

/-- The bytes that both write paths store for a document. -/
def LaHost.encode (host : LaHost) (doc : LaCodecValue) : Option (List UInt8) :=
  (host.codec.dump doc).bind host.deflate

def isTombstone (doc : LaCodecValue) : Bool :=
  doc.laCodecIsObject && decide (doc.laCodecObjectSize ≤ 3) &&
    laCodecIsTrue (doc.laCodecObjectGet laApiDeletedName)

/-- A get returned: its status, the value and `current_rev`, as far as they were set. -/
structure LaDbGetReturn where
  result : LaDbGetResult
  value : Option LaCodecValue := none
  currentRev : Option LaRev := none

/-- `la_db_get`. -/
def laDbGet {σ : Type} (db : LaDb σ) (s : σ) (key : CString) (rev : Option LaRev) :
    LaDbGetReturn :=
  match db.driver.get s key (rev.map LaRev.rev) with
  | (.ok, some object) =>
    if object.header.deleted then ⟨.notFound, none, none⟩
    else
      match db.host.inflate object.laStorageObjectGetData with
      | none => ⟨.error, none, none⟩
      | some data =>
        let current : LaRev := ⟨object.header.docSeq, object.header.rev⟩
        match db.host.codec.loadb data with
        | none => ⟨.error, none, some current⟩
        | some v =>
          if isTombstone v then ⟨.notFound, none, some current⟩ else ⟨.ok, some v, some current⟩
  | (.notFound, _) => ⟨.notFound, none, none⟩
  | (.revisionNotFound, _) => ⟨.notFound, none, none⟩
  | _ => ⟨.error, none, none⟩

/-- `la_db_get_allrevs`, without the start. -/
def laDbGetAllrevs {σ : Type} (db : LaDb σ) (s : σ) (key : CString) :
    Int × Option (List LaStorageRev) :=
  db.driver.getAllRevs s key

/-- A put returned. `newrev` is set whenever the driver was asked. -/
structure LaDbPutReturn (σ : Type) where
  result : LaDbPutResult
  store : σ
  newrev : Option LaRev := none

/-- The key of a document put without one. -/
def keyOfDoc (c : ApiCalls) (doc : LaCodecValue) : CString :=
  ((doc.laCodecObjectGet laApiKeyName).bind laCodecStringValue).getD c.randhex

/-- The document as `do_la_db_put` hashes and stores it. -/
def putDoc (doc : LaCodecValue) : LaCodecValue :=
  (doc.laCodecObjectDel laApiKeyName).laCodecObjectDel laApiRevName

def putResult : LaStorageObjectPutResult → LaDbPutResult
  | .success => .ok
  | .conflict => .conflict
  | .error => .error

/-- `do_la_db_put`. A buffer that was not allocated is appended to, a trap. -/
def doLaDbPut {σ : Type} (db : LaDb σ) (c : ApiCalls) (s : σ) (key : Option CString)
    (oldrev : Option LaRev) (doc : Option LaCodecValue) (isDelete : Bool) :
    Option (LaDbPutReturn σ) :=
  match doc with
  | none => some ⟨.invalidArg, s, none⟩
  | some doc =>
    if !doc.laCodecIsObject || (!isDelete && (doc.laCodecObjectGet laApiDeletedName).isSome) then
      some ⟨.invalidArg, s, none⟩
    else if !c.copied then some ⟨.error, s, none⟩
    else
      let nextrev := laRevgen db.host.revgen (putDoc doc) ((oldrev.map LaRev.seq).getD 0)
        (oldrev.map LaRev.rev) isDelete
      if !c.buffer then none
      else
        match db.host.encode (putDoc doc) with
        | none => some ⟨.error, s, none⟩
        | some data =>
          match laStorageCreateObject c.created c.heap (key.getD (keyOfDoc c doc)) nextrev data
              (UInt32.ofNat data.length) none 0 with
          | none => none
          | some none => some ⟨.error, s, none⟩
          | some (some object) =>
            let object := { object with header := { object.header with deleted := isDelete } }
            (db.driver.put s (oldrev.map LaRev.rev) object).map fun ret =>
              ⟨putResult ret.1, ret.2.1, some ⟨ret.2.2.header.docSeq, nextrev⟩⟩

/-- `la_db_put`. -/
def laDbPut {σ : Type} (db : LaDb σ) (c : ApiCalls) (s : σ) (key : Option CString)
    (rev : Option LaRev) (doc : Option LaCodecValue) : Option (LaDbPutReturn σ) :=
  doLaDbPut db c s key rev doc false

def deleteResult : LaDbPutResult → LaDbDeleteResult
  | .conflict => .conflict
  | .ok => .ok
  | _ => .error

/-- `la_db_delete`. `object` tells whether the empty document could be allocated. -/
def laDbDelete {σ : Type} (db : LaDb σ) (c : ApiCalls) (object : Bool) (s : σ)
    (key : Option CString) (rev : Option LaRev) : Option (LaDbDeleteResult × σ) :=
  if !object then some (.error, s)
  else
    (doLaDbPut db c s key rev (some (.object [])) true).map fun ret =>
      (deleteResult ret.result, ret.store)

/-- The document as `la_db_replace` stores it. -/
def replaceDoc (doc : LaCodecValue) : LaCodecValue :=
  (putDoc doc).laCodecObjectDel laApiDeletedName

def isDeleted (doc : LaCodecValue) : Bool :=
  laCodecIsTrue (doc.laCodecObjectGet laApiDeletedName)

/-- `la_db_replace`. `oldrevs` is the array behind the pointer, of which `revcount` entries
are taken. The revision computed locally is compared in debug builds only; an object that
was not allocated is written to, a trap. -/
def laDbReplace {σ : Type} (db : LaDb σ) (c : ApiCalls) (s : σ) (key : Option CString)
    (rev : Option LaRev) (doc : Option LaCodecValue) (oldrevs : Option (List LaStorageRev))
    (revcount : Nat) : Option (LaDbPutReturn σ) :=
  match key, rev, doc with
  | some key, some rev, some doc =>
    if !doc.laCodecIsObject then some ⟨.invalidArg, s, none⟩
    else if !c.buffer || !c.copied then some ⟨.error, s, none⟩
    else
      match db.host.encode (replaceDoc doc) with
      | none => some ⟨.error, s, none⟩
      | some data =>
        match (laStorageCreateObject c.created c.heap key rev.rev data
            (UInt32.ofNat data.length) oldrevs revcount).join with
        | none => none
        | some obj =>
          let header := { obj.header with deleted := isDeleted doc, docSeq := rev.seq }
          (db.driver.replace s { obj with header := header }).map fun ret =>
            ⟨if ret.1 = .success then .ok else .error, ret.2.1, none⟩
  | _, _, _ => some ⟨.invalidArg, s, none⟩

/-- A database in Berkeley DB, with the environment of one driver call. -/
def bdbDb (host : LaHost) (calls : BdbCalls) : LaDb BdbStore := ⟨host, bdbDriver calls⟩

/-- A codec that knows the empty object only. -/
def emptyObjectCodec : CodecLib where
  dump := fun v => match v with
    | .object [] => some [123, 125]
    | _ => none
  loadb := fun b => if b = [123, 125] then some (.object []) else none

/-- The arguments of `la_db_view`. A map function is the list of values it emits, NULL
among them; a reduce function sees NULL before its first value. -/
structure LaView where
  map : Option (LaCodecValue → List (Option LaCodecValue))
  reduce : Option (Option LaCodecValue → LaCodecValue → Option LaCodecValue)

/-- `la_view_iterator`. -/
structure LaViewIterator where
  it : LaStorageObjectIterator
  accum : Option LaCodecValue
  mapped : List LaCodecValue

inductive LaViewIteratorResult where
  | gotNext | iterEnd | error
  deriving DecidableEq

/-- `la_db_view` over a Berkeley DB store. -/
def laDbView (s : BdbStore) : Option LaViewIterator :=
  (bdbLaStorageIteratorOpen s 0).map fun it => ⟨it, none, []⟩

/-- What a document adds to the queue. -/
def emitted (view : LaView) (doc : LaCodecValue) : List LaCodecValue :=
  match view.map with
  | some map => (map doc).filterMap id
  | none => [doc]

/-- How the loop of `la_view_iterator_next` ends, over the cursor: with a status, or with
one document parsed and its values queued. -/
inductive Filled where
  | stop (result : LaViewIteratorResult) (rest : List (Option (List UInt8 × List UInt8)))
  | parsed (mapped : List LaCodecValue) (rest : List (Option (List UInt8 × List UInt8)))

/-- The loop of `la_view_iterator_next`, entered with nothing queued. The cases are the three
results of `bdb_la_storage_iterator_next`. -/
def fillMapped (host : LaHost) (view : LaView) (heap : CString → Memory) :
    List (Option (List UInt8 × List UInt8)) → Filled
  | [] => .stop .iterEnd []
  | none :: rest => .stop .error rest
  | some e :: rest =>
    if (entryObject heap e).header.deleted then fillMapped host view heap rest
    else
      match (host.inflate (entryObject heap e).laStorageObjectGetData).bind host.codec.loadb with
      | none => .stop .error rest
      | some parsed => .parsed (emitted view parsed) rest

/-- One turn of the loop, in terms of the iterator call it makes. -/
theorem fillMapped_next (host : LaHost) (view : LaView) (heap : CString → Memory)
    (it : LaStorageObjectIterator) :
    fillMapped host view heap it.cursor =
      match bdbLaStorageIteratorNext heap it with
      | (.gotNext, some object, it') =>
        if object.header.deleted then fillMapped host view heap it'.cursor
        else
          match (host.inflate object.laStorageObjectGetData).bind host.codec.loadb with
          | none => .stop .error it'.cursor
          | some parsed => .parsed (emitted view parsed) it'.cursor
      | (.iterEnd, _, it') => .stop .iterEnd it'.cursor
      | (_, _, it') => .stop .error it'.cursor := by
  obtain ⟨_ | ⟨_ | e, rest⟩⟩ := it <;> rfl

/-- The end of `la_view_iterator_next`: hand out the first queued value. -/
def takeMapped (view : LaView) (it : LaViewIterator) :
    LaViewIteratorResult × Option LaCodecValue × LaViewIterator :=
  match it.mapped with
  | [] => (.error, none, it)
  | v :: rest =>
    let accum := match view.reduce with
      | some reduce => reduce it.accum v
      | none => it.accum
    (.gotNext, some v, { it with accum := accum, mapped := rest })

/-- `la_view_iterator_next`. -/
def laViewIteratorNext (host : LaHost) (view : LaView) (heap : CString → Memory)
    (it : LaViewIterator) : LaViewIteratorResult × Option LaCodecValue × LaViewIterator :=
  if it.mapped.isEmpty then
    match fillMapped host view heap it.it.cursor with
    | .stop .iterEnd rest => (.iterEnd, it.accum, { it with it := ⟨rest⟩ })
    | .stop result rest => (result, none, { it with it := ⟨rest⟩ })
    | .parsed mapped rest => takeMapped view { it with it := ⟨rest⟩, mapped := mapped }
  else takeMapped view it

end LoungeApi
