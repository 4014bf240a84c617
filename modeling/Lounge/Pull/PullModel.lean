import Lounge.Api.LoungeApi
import Lounge.Lib.Process
import Lounge.Revgen.RevScan

/-!
# The puller

`pull/pull.c` over a Berkeley DB database. A pull run is a process: its calls of the
document API and of the conflict resolver are the points where other clients can come
in between. The HTTP transfers, Jansson and the allocator are arguments. A codec value
is a Jansson value, so `la_codec_from_json` is the identity.
-/

namespace PullModel
open ObjectStore CodecValue CouchRevgen RevScan LoungeApi BdbDriver Process
open LaCodecValue (laCodecStringValue)

/-- `json_loadb` and `json_dumps` without flags. -/
structure JsonLib where
  loadb : List UInt8 → Option LaCodecValue
  dumps : LaCodecValue → Option CString

/-- The member names of a changes feed and of a document. -/
def idName : CString := CString.ofBytes [105, 100]
def seqName : CString := CString.ofBytes [115, 101, 113]
def changesName : CString := CString.ofBytes [99, 104, 97, 110, 103, 101, 115]
def revName : CString := CString.ofBytes [114, 101, 118]
def lastSeqName : CString := CString.ofBytes [108, 97, 115, 116, 95, 115, 101, 113]
def resultsName : CString := CString.ofBytes [114, 101, 115, 117, 108, 116, 115]
def revisionsName : CString :=
  CString.ofBytes [95, 114, 101, 118, 105, 115, 105, 111, 110, 115]
def startName : CString := CString.ofBytes [115, 116, 97, 114, 116]
def idsName : CString := CString.ofBytes [105, 100, 115]

/-- `isalnum` in the C locale. -/
def isAlnum (c : UInt8) : Bool :=
  (48 ≤ c && c ≤ 57) || (65 ≤ c && c ≤ 90) || (97 ≤ c && c ≤ 122)

/-- What `url_encode` makes of a character. `"%%%02x"` prints a negative one as an `int`. -/
def urlEncodeChar (c : UInt8) : List UInt8 :=
  if c = 32 then [43]
  else if isAlnum c || c = 46 || c = 45 || c = 95 || c = 126 then [c]
  else 37 :: (if c < 128 then [] else List.replicate 6 102) ++ hexText [c]

def urlEncode (s : CString) : List UInt8 := s.bytes.flatMap urlEncodeChar

/-- The URL of one version of a document, `"%s/%s?revs=true&rev=%s"`. -/
def documentUrl (urlbase key rev : CString) : CString :=
  CString.ofBytes (urlbase.bytes ++ 47 :: urlEncode key ++
    [63, 114, 101, 118, 115, 61, 116, 114, 117, 101, 38, 114, 101, 118, 61] ++ rev.bytes)

def isSeq : LaCodecValue → Bool
  | .integer _ => true
  | .string _ => true
  | _ => false

/-- The key and revision text of a change, if it has all that the loop wants of one. A member
of something that is no object is missing. -/
def changeKeyRev (change : LaCodecValue) : Option (CString × CString) :=
  match change.laCodecObjectGet idName, change.laCodecObjectGet seqName,
      change.laCodecObjectGet changesName with
  | some (.string key), some seq, some (.array (changeObj :: _)) =>
    match isSeq seq, changeObj.laCodecObjectGet revName with
    | true, some (.string rev) => some (key, rev)
    | _, _ => none
  | _, _, _ => none

/-- The document without `_revisions`, and the `ids` of that. -/
def parseRevisions (object : LaCodecValue) : Option (LaCodecValue × List LaCodecValue) :=
  match object.laCodecObjectGet revisionsName with
  | some revisions =>
    match revisions.laCodecObjectGet startName, revisions.laCodecObjectGet idsName with
    | some (.integer _), some (.array ids) => some (object.laCodecObjectDel revisionsName, ids)
    | _, _ => none
  | none => none

/-- `remote_revs`, scanned into an array that held `junk`. An id that is no string has no
characters, a trap. -/
def scanIds (junk : Nat → LaStorageRev) : Nat → List LaCodecValue → Option (List LaStorageRev)
  | _, [] => some []
  | j, v :: rest =>
    match laCodecStringValue v, scanIds junk (j + 1) rest with
    | some str, some revs => some (laStorageScanRev str (junk j) :: revs)
    | _, _ => none

/-- `local_revs` and `myrevcount`: the current revision before what `la_db_get_allrevs`
returned. -/
def localRevs (allocated : Bool) (rev : LaStorageRev) (all : Int × Option (List LaStorageRev)) :
    Option (List LaStorageRev) :=
  if !allocated then none
  else
    match all.2 with
    | some revs => if 0 < all.1 then some (rev :: revs.take all.1.toNat) else some [rev]
    | none => some [rev]

theorem localRevs_head {allocated : Bool} {rev : LaStorageRev}
    {all : Int × Option (List LaStorageRev)} {mine : List LaStorageRev}
    (h : localRevs allocated rev all = some mine) : ∃ rest, mine = rev :: rest := by
  simp only [localRevs] at h
  split at h
  · cases h
  · split at h
    · split at h
      · exact ⟨_, (Option.some.inj h).symm⟩
      · exact ⟨[], (Option.some.inj h).symm⟩
    · exact ⟨[], (Option.some.inj h).symm⟩

theorem localRevs_some (rev : LaStorageRev) (all : Int × Option (List LaStorageRev)) :
    ∃ mine, localRevs true rev all = some mine := by
  simp only [localRevs, Bool.not_true, Bool.false_eq_true, if_false]
  split
  · split
    · exact ⟨_, rfl⟩
    · exact ⟨_, rfl⟩
  · exact ⟨_, rfl⟩

/-- `revslen - 1`, which `la_db_replace` takes as a `size_t`. -/
def revcount (revslen : Nat) : Nat := if revslen = 0 then 2 ^ 64 - 1 else revslen - 1

/-- Which of its three `la_db_replace` calls the loop is at; `behind` with the local revision
that was compared. -/
inductive WriteReason where
  | added | behind (rev : LaRev) | theirs

/-- `la_pull_resolve_result_t`, with the merged document. -/
inductive Resolution where
  | takeMine | takeTheirs | takeMerged (merged : Option LaCodecValue)

abbrev Resolver := CString → LaCodecValue → LaCodecValue → Resolution

/-- `la_pull_conflict_resolver_mine`, the default. -/
def resolveMine : Resolver := fun _ _ _ => .takeMine

/-- `la_pull_conflict_resolver_theirs`. -/
def resolveTheirs : Resolver := fun _ _ _ => .takeTheirs

/-- The calls of a pull run, each with its environment. `rev` of `resolve` is the revision
under which `mine` was stored; the resolver does not see it. -/
inductive PullCall where
  | get (calls : BdbCalls) (key : CString)
  | getAllrevs (calls : BdbCalls) (key : CString)
  | resolve (key : CString) (mine theirs : LaCodecValue) (rev : Option LaRev)
  | replace (calls : BdbCalls) (c : ApiCalls) (key : CString) (rev : LaRev)
      (doc : LaCodecValue) (remoteRevs : List LaStorageRev) (why : WriteReason)
  | put (calls : BdbCalls) (c : ApiCalls) (key : CString) (rev : LaRev)
      (doc : Option LaCodecValue)

def PullReply : PullCall → Type
  | .get .. => LaDbGetReturn
  | .getAllrevs .. => Int × Option (List LaStorageRev)
  | .resolve .. => Resolution
  | .replace .. => LaDbPutResult
  | .put .. => LaDbPutResult

abbrev PullProc := Proc PullCall PullReply

/-- The database and the resolver answer. -/
def servePull (host : LaHost) (resolver : Resolver) : Server PullCall PullReply BdbStore
  | .get calls key, s => some (laDbGet (bdbDb host calls) s key none, s)
  | .getAllrevs calls key, s => some (laDbGetAllrevs (bdbDb host calls) s key, s)
  | .resolve key mine theirs _, s => some (resolver key mine theirs, s)
  | .replace calls c key rev doc remoteRevs _, s =>
    (laDbReplace (bdbDb host calls) c s (some key) (some rev) (some doc) (some remoteRevs.tail)
      (revcount remoteRevs.length)).map fun ret => (ret.result, ret.store)
  | .put calls c key rev doc, s =>
    (laDbPut (bdbDb host calls) c s (some key) (some rev) doc).map fun ret =>
      (ret.result, ret.store)

section Reads
variable {host : LaHost} {resolver : Resolver} {α : Type} {s : BdbStore}

theorem trace_get (calls : BdbCalls) (key : CString) (k : LaDbGetReturn → PullProc α) :
    trace (servePull host resolver) (.call (.get calls key) k) s =
      ⟨s, .get calls key, true, s⟩ ::
        trace (servePull host resolver) (k (laDbGet (bdbDb host calls) s key none)) s := rfl

theorem run_get (calls : BdbCalls) (key : CString) (k : LaDbGetReturn → PullProc α) :
    run (servePull host resolver) (.call (.get calls key) k) s =
      run (servePull host resolver) (k (laDbGet (bdbDb host calls) s key none)) s := rfl

theorem trace_getAllrevs (calls : BdbCalls) (key : CString)
    (k : Int × Option (List LaStorageRev) → PullProc α) :
    trace (servePull host resolver) (.call (.getAllrevs calls key) k) s =
      ⟨s, .getAllrevs calls key, true, s⟩ ::
        trace (servePull host resolver) (k (laDbGetAllrevs (bdbDb host calls) s key)) s := rfl

theorem trace_resolve (key : CString) (mine theirs : LaCodecValue) (rev : Option LaRev)
    (k : Resolution → PullProc α) :
    trace (servePull host resolver) (.call (.resolve key mine theirs rev) k) s =
      ⟨s, .resolve key mine theirs rev, true, s⟩ ::
        trace (servePull host resolver) (k (resolver key mine theirs)) s := rfl

end Reads

/-- A transfer: the bytes `pull_write_cb` was given, and whether `curl_easy_perform` succeeded. -/
structure Transfer where
  delivered : List UInt8
  ok : Bool

/-- `json_loadb`, which returns NULL also when it gets no memory. -/
def JsonLib.load (json : JsonLib) (allocated : Bool) (bytes : List UInt8) : Option LaCodecValue :=
  if allocated then json.loadb bytes else none

/-- The environment of one change. `setup` tells whether the curl handle was made and set up,
`urlBuilt` whether its URL was allocated. `garbageFreed` tells whether the program survives
`la_codec_decref` of a pointer it never set. -/
structure ChangeEnv where
  uninitRev : LaRev := ⟨0, zeroRev⟩
  getCalls : BdbCalls := {}
  urlBuilt : Bool := true
  setup : Bool := true
  remote : CString → Transfer
  jsonAllocated : Bool := true
  revsAllocated : Bool := true
  revsJunk : Nat → LaStorageRev := fun _ => zeroRev
  allrevsCalls : BdbCalls := {}
  localAllocated : Bool := true
  conflictCalls : BdbCalls := {}
  garbageFreed : Bool := true
  writeCalls : BdbCalls := {}
  writeApi : ApiCalls := {}

/-- Why a change was passed over. -/
inductive Skip where
  | malformed | localGet | transport | response | allocation | conflictGet
  deriving DecidableEq

/-- What became of a change. -/
inductive Outcome where
  | skipped (why : Skip) | current | added | replaced | ahead | resolved (by_ : Resolution)

section Change
variable (env : ChangeEnv) (key : CString)

/-- The conflict branch. `mine` is the local version as it is now. -/
def resolveConflict (rev thatrev : LaRev) (object : LaCodecValue)
    (remoteRevs : List LaStorageRev) : PullProc Outcome :=
  .call (.get env.conflictCalls key) fun mine : LaDbGetReturn =>
    match mine.result, mine.value with
    | .ok, some myvalue =>
      .call (.resolve key myvalue object mine.currentRev) fun resolution : Resolution =>
        match resolution with
        | .takeMine => .done (.resolved .takeMine)
        | .takeTheirs =>
          .call (.replace env.writeCalls env.writeApi key thatrev object remoteRevs .theirs)
            fun _ => .done (.resolved .takeTheirs)
        | .takeMerged merged =>
          .call (.put env.writeCalls env.writeApi key rev merged)
            fun _ => .done (.resolved (.takeMerged merged))
    | _, _ => if env.garbageFreed then .done (.skipped .conflictGet) else .trap

/-- The three cases of a document that is here and there. -/
def compareRevs (rev thatrev : LaRev) (object : LaCodecValue) (remoteRevs : List LaStorageRev) :
    PullProc Outcome :=
  .call (.getAllrevs env.allrevsCalls key) fun all : Int × Option (List LaStorageRev) =>
    match localRevs env.localAllocated rev.rev all with
    | none => .done (.skipped .allocation)
    | some mine =>
      if laStorageRevsOverlap mine remoteRevs then
        .call (.replace env.writeCalls env.writeApi key thatrev object remoteRevs (.behind rev))
          fun _ => .done .replaced
      else if !laStorageRevsOverlap remoteRevs mine then
        resolveConflict env key rev thatrev object remoteRevs
      else .done .ahead

/-- What the loop does with a version it fetched. Without a local one, "just set it". -/
def takeVersion (mine : Option LaRev) (thatrev : LaRev) (object : LaCodecValue)
    (remoteRevs : List LaStorageRev) : PullProc Outcome :=
  match mine with
  | none =>
    .call (.replace env.writeCalls env.writeApi key thatrev object remoteRevs .added)
      fun _ => .done .added
  | some rev => compareRevs env key rev thatrev object remoteRevs

/-- "Rev is missing, fetch it." Returned with the outcome is what `puller->buffer` holds: a
failed transfer leaves in it what was delivered, the next one is appended to that. -/
def fetchVersion (json : JsonLib) (urlbase revText : CString) (thatrev : LaRev)
    (mine : Option LaRev) (buffer : List UInt8) : PullProc (Outcome × List UInt8) :=
  let transfer := env.remote (documentUrl urlbase key revText)
  let received := buffer ++ transfer.delivered
  if !env.urlBuilt then .trap
  else if !env.setup then .done (.skipped .transport, buffer)
  else if !transfer.ok then .done (.skipped .transport, received)
  else
    match (json.load env.jsonAllocated received).bind parseRevisions with
    | none => .done (.skipped .response, [])
    | some (object, ids) =>
      if !env.revsAllocated then .done (.skipped .allocation, [])
      else
        match scanIds env.revsJunk 0 ids with
        | none => .trap
        | some remoteRevs =>
          (takeVersion env key mine thatrev object remoteRevs).map fun outcome => (outcome, [])

/-- The version that the loop has in hand after the transfer, with its revision ids. -/
def fetchedVersion (json : JsonLib) (urlbase revText : CString) (buffer : List UInt8) :
    Option (LaCodecValue × List LaStorageRev) :=
  let transfer := env.remote (documentUrl urlbase key revText)
  if env.urlBuilt && env.setup && transfer.ok && env.revsAllocated then
    ((json.load env.jsonAllocated (buffer ++ transfer.delivered)).bind parseRevisions).bind
      fun version => (scanIds env.revsJunk 0 version.2).map fun ids => (version.1, ids)
  else none

section Fetch
variable {env key} {json : JsonLib} {urlbase revText : CString} {buffer : List UInt8}

/-- Without a version no call is made. Only a transfer that failed leaves something in the
buffer. -/
theorem fetchVersion_none (fetched : fetchedVersion env key json urlbase revText buffer = none)
    (thatrev : LaRev) (mine : Option LaRev) :
    fetchVersion env key json urlbase revText thatrev mine buffer = .trap ∨
      ∃ why rest, fetchVersion env key json urlbase revText thatrev mine buffer =
        .done (.skipped why, rest) ∧ (why = .transport ∨ rest = []) := by
  simp only [fetchVersion]
  split
  · exact Or.inl rfl
  split
  · exact Or.inr ⟨_, _, rfl, Or.inl rfl⟩
  split
  · exact Or.inr ⟨_, _, rfl, Or.inl rfl⟩
  split
  · exact Or.inr ⟨_, _, rfl, Or.inr rfl⟩
  split
  · exact Or.inr ⟨_, _, rfl, Or.inr rfl⟩
  rename_i built setup ok _ object raw parsed allocated
  split
  · exact Or.inl rfl
  · rename_i ids scanned
    simp only [Bool.not_eq_true', Bool.not_eq_false] at built setup ok allocated
    simp [fetchedVersion, built, setup, ok, allocated, parsed, scanned] at fetched

theorem fetchVersion_some {object : LaCodecValue} {ids : List LaStorageRev}
    (fetched : fetchedVersion env key json urlbase revText buffer = some (object, ids))
    (thatrev : LaRev) (mine : Option LaRev) :
    fetchVersion env key json urlbase revText thatrev mine buffer =
      (takeVersion env key mine thatrev object ids).map fun outcome => (outcome, []) := by
  simp only [fetchedVersion] at fetched
  split at fetched
  · rename_i ready
    simp only [Bool.and_eq_true] at ready
    obtain ⟨⟨⟨built, setup⟩, ok⟩, allocated⟩ := ready
    obtain ⟨version, parsed, scanned⟩ := Option.bind_eq_some_iff.mp fetched
    obtain ⟨revs, scan, same⟩ := Option.map_eq_some_iff.mp scanned
    obtain ⟨rfl, rfl⟩ := Prod.mk.inj same
    simp [fetchVersion, built, setup, ok, allocated, parsed, scan]
  · cases fetched

end Fetch

end Change

/-- The body of the loop. -/
def handleChange (json : JsonLib) (urlbase : CString) (env : ChangeEnv) (change : LaCodecValue)
    (buffer : List UInt8) : PullProc (Outcome × List UInt8) :=
  match changeKeyRev change with
  | none => .done (.skipped .malformed, buffer)
  | some (key, revText) =>
    let thatrev := (laRevScan revText env.uninitRev).2
    .call (.get env.getCalls key) fun ret : LaDbGetReturn =>
      match ret.result, ret.currentRev with
      | .error, _ => .done (.skipped .localGet, buffer)
      | .notFound, _ => fetchVersion env key json urlbase revText thatrev none buffer
      | .ok, some rev =>
        if rev.rev = thatrev.rev then .done (.current, buffer)
        else fetchVersion env key json urlbase revText thatrev (some rev) buffer
      | .ok, none => .trap

/-- The loop from change number `i` on. -/
def handleChanges (json : JsonLib) (urlbase : CString) (envs : Nat → ChangeEnv) :
    Nat → List LaCodecValue → List UInt8 → PullProc (List (LaCodecValue × Outcome))
  | _, [], _ => .done []
  | i, change :: rest, buffer =>
    (handleChange json urlbase (envs i) change buffer).bind fun done =>
      (handleChanges json urlbase envs (i + 1) rest done.2).map fun others =>
        (change, done.1) :: others

/-- `la_pull`, without the database, the resolver and the curl handle. The credentials only
matter for the success of the set-up calls. -/
structure Puller where
  urlbase : CString
  url : CString
  sep : UInt8
  lastSeq : Option CString
  continuous : Bool

structure PullParams where
  host : CString
  port : UInt16
  dbname : CString
  filter : Option CString
  secure : Bool
  continuous : Bool

/-- `la_pull_create`. -/
def laPullCreate (allocated : Bool) (params : PullParams) : Option Puller :=
  if !allocated then none
  else
    let base := [104, 116, 116, 112] ++ (if params.secure then [115] else []) ++ [58, 47, 47] ++
      params.host.bytes ++ 58 :: decimal params.port.toNat ++ 47 :: params.dbname.bytes
    let changes := base ++ [47, 95, 99, 104, 97, 110, 103, 101, 115]
    match params.filter with
    | none => some ⟨CString.ofBytes base, CString.ofBytes changes, 63, none, params.continuous⟩
    | some filter =>
      let filtered := changes ++ 63 :: [102, 105, 108, 116, 101, 114, 61] ++ filter.bytes
      some ⟨CString.ofBytes base, CString.ofBytes filtered, 38, none, params.continuous⟩

/-- The environment of `init_changes_feed`. -/
structure FeedEnv where
  curl : Bool := true
  urlBuilt : Bool := true
  setup : Bool := true
  buffer : Bool := true

/-- `init_changes_feed`: whether it returns 0. The URL of the last feed is extended, not
replaced, and its separator stays. -/
def initChangesFeed (env : FeedEnv) (p : Puller) : Option (Bool × Puller) :=
  if !env.curl then some (false, p)
  else
    match p.lastSeq with
    | none => some (env.setup && env.buffer, p)
    | some lastSeq =>
      if !env.urlBuilt then none
      else
        let url := CString.ofBytes (p.url.bytes ++
          p.sep :: [115, 105, 110, 99, 101, 61] ++ lastSeq.bytes)
        some (env.setup && env.buffer, { p with url := url })

/-- The URL is all that changes. -/
theorem initChangesFeed_keeps {env : FeedEnv} {p q : Puller} {done : Bool}
    (init : initChangesFeed env p = some (done, q)) :
    q.urlbase = p.urlbase ∧ q.lastSeq = p.lastSeq := by
  simp only [initChangesFeed] at init
  split at init
  · cases init
    exact ⟨rfl, rfl⟩
  · split at init
    · cases init
      exact ⟨rfl, rfl⟩
    · split at init
      · cases init
      · cases init
        exact ⟨rfl, rfl⟩

/-- The environment of a run. `feed` is what the server has to say to a URL, with its status
code; `ok` also tells that `curl_easy_getinfo` succeeded. -/
structure RunEnv where
  init : FeedEnv := {}
  feed : CString → Transfer × Int
  jsonAllocated : Bool := true
  changes : Nat → ChangeEnv
  again : FeedEnv := {}

/-- `la_pull_run` returned. `handled` is what became of each change of the feed. -/
structure PullReturn where
  status : Int
  puller : Puller
  handled : List (LaCodecValue × Outcome)

/-- The last statements of `la_pull_run`. -/
def finishRun (env : RunEnv) (p : Puller) (handled : List (LaCodecValue × Outcome)) :
    PullProc PullReturn :=
  if p.continuous then
    match initChangesFeed env.again p with
    | none => .trap
    | some (_, p) => .done ⟨0, p, handled⟩
  else .done ⟨0, p, handled⟩

/-- `la_pull_run`. The checkpoint is taken before the changes are looked at. -/
def laPullRun (json : JsonLib) (env : RunEnv) (p : Puller) : PullProc PullReturn :=
  match initChangesFeed env.init p with
  | none => .trap
  | some (false, p) => .done ⟨-1, p, []⟩
  | some (true, p) =>
    let (transfer, status) := env.feed p.url
    if !transfer.ok || status != 200 then .done ⟨-1, p, []⟩
    else
      match json.load env.jsonAllocated transfer.delivered with
      | none => .done ⟨-1, p, []⟩
      | some changes =>
        if !changes.laCodecIsObject then .done ⟨-1, p, []⟩
        else
          let p := { p with lastSeq := (changes.laCodecObjectGet lastSeqName).bind json.dumps }
          match changes.laCodecObjectGet resultsName with
          | some (.array results) =>
            (handleChanges json p.urlbase env.changes 0 results []).bind (finishRun env p)
          | _ => .done ⟨-1, p, []⟩

section Texts

mutual

/-- The text `json_dumps` makes of a value without reals whose strings need no escapes. -/
def jsonText : LaCodecValue → List UInt8
  | .object members => 123 :: membersText members ++ [125]
  | .array elements => 91 :: elementsText elements ++ [93]
  | .string s => 34 :: s.bytes ++ [34]
  | .integer i => (if i < 0 then [45] else []) ++ decimal i.toInt.natAbs
  | .bignum i => (if i < 0 then [45] else []) ++ decimal i.natAbs
  | .real _ => [48, 46, 48]
  | .true => [116, 114, 117, 101]
  | .false => [102, 97, 108, 115, 101]
  | .null => [110, 117, 108, 108]

def elementsText : List LaCodecValue → List UInt8
  | [] => []
  | v :: rest => jsonText v ++ (if rest.isEmpty then [] else [44, 32]) ++ elementsText rest

def membersText : List (CString × LaCodecValue) → List UInt8
  | [] => []
  | m :: rest => memberText m ++ (if rest.isEmpty then [] else [44, 32]) ++ membersText rest

def memberText : CString × LaCodecValue → List UInt8
  | (key, v) => 34 :: key.bytes ++ [34, 58, 32] ++ jsonText v

end

/-- A Jansson that knows a table of texts only. Without flags `json_dumps` renders objects and
arrays, and makes NULL of anything else. -/
def textsOf (table : List LaCodecValue) : JsonLib where
  loadb := fun b => table.find? fun v => jsonText v == b
  dumps := fun v =>
    match v with
    | .object _ | .array _ => some (CString.ofBytes (jsonText v))
    | _ => none

theorem textsOf_loadb (v : LaCodecValue) (rest : List LaCodecValue) :
    (textsOf (v :: rest)).loadb (jsonText v) = some v := by
  simp [textsOf]

/-- A changes feed with one change for each of the documents. -/
def changesFeed (lastSeq : LaCodecValue) (docs : List (CString × LaRev)) : LaCodecValue :=
  let change := fun doc : CString × LaRev => LaCodecValue.object
    [(seqName, .integer 1), (idName, .string doc.1),
      (changesName, .array [.object [(revName, .string (textOfRev doc.2))]])]
  .object [(resultsName, .array (docs.map change)), (lastSeqName, lastSeq)]

/-- A version of a document, with its revisions. -/
def versionOf (members : List (CString × LaCodecValue)) (revs : List LaStorageRev) :
    LaCodecValue :=
  let ids := revs.map fun r => LaCodecValue.string (CString.ofBytes (hexText r.rev))
  .object (members ++ [(revisionsName,
    .object [(startName, .integer (Int64.ofNat revs.length)), (idsName, .array ids)])])

theorem scanIds_hexText (junk : Nat → LaStorageRev) (j : Nat) (revs : List LaStorageRev) :
    scanIds junk j (revs.map fun r => .string (CString.ofBytes (hexText r.rev))) = some revs := by
  induction revs generalizing j with
  | nil => rfl
  | cons r rest ih =>
    simp only [List.map_cons, scanIds, laCodecStringValue, ih, laStorageScanRev_hexText]

/-- A version that was printed is parsed into its document and revisions. -/
theorem parseRevisions_versionOf (members : List (CString × LaCodecValue))
    (revs : List LaStorageRev) (plain : ∀ m ∈ members, m.1 ≠ revisionsName) :
    parseRevisions (versionOf members revs) = some (.object members,
      revs.map fun r => .string (CString.ofBytes (hexText r.rev))) := by
  have others : members.find? (fun m => m.1 == revisionsName) = none := by
    simpa using plain
  have kept : members.filter (fun m => m.1 != revisionsName) = members := by
    simpa using plain
  have start : (startName == idsName) = false := by decide +kernel
  simp [parseRevisions, versionOf, LaCodecValue.laCodecObjectGet, LaCodecValue.laCodecObjectDel,
    others, kept, start]

end Texts

end PullModel
