import Lounge.Api.ApiMap
import Lounge.Pull.PullTwice

/-!
# What a pull leaves

The database after a run of the puller, key by key. A version that the loop wrote is what
`la_db_get` returns from then on, with its history behind it; where the loop wrote nothing the
record is the one that was there before the run.
-/

namespace PullDelivers
open ObjectStore CodecValue CouchRevgen RevScan LoungeApi ApiWrites BdbDriver BdbRecord BdbPut
  BdbApi Process Runs PullModel PullTurns PullCalls PullWrites PullTwice
open ApiMap (replaceDoc_get_deleted isTombstone_of_absent)

/-- The loop took the remote version. -/
def takesTheirs : Outcome → Bool
  | .added => true
  | .replaced => true
  | .resolved .takeTheirs => true
  | _ => false

/-- The loop left the local version. -/
def leavesMine : Outcome → Bool
  | .skipped _ => true
  | .current => true
  | .ahead => true
  | .resolved .takeMine => true
  | _ => false

section Change
variable (host : LaHost) (env : ChangeEnv) (key : CString) (thatrev : LaRev)
  (object : LaCodecValue) (ids : List LaStorageRev) (s : BdbStore)

/-- The store after a version was handled: as it was, or as `la_db_replace` left it. -/
structure Ends (o : Outcome) (s' : BdbStore) : Prop where
  mine : leavesMine o = true → s' = s
  theirs : takesTheirs o = true → ∃ ret,
    laDbReplace (bdbDb host env.writeCalls) env.writeApi s (some key) (some thatrev) (some object)
      (some ids.tail) (revcount ids.length) = some ret ∧ s' = ret.store

variable {host env key thatrev object ids s} {resolver : Resolver} {o : Outcome} {s' : BdbStore}

theorem run_getAllrevs {α : Type} (calls : BdbCalls)
    (k : Int × Option (List LaStorageRev) → PullProc α) :
    run (servePull host resolver) (.call (.getAllrevs calls key) k) s =
      run (servePull host resolver) (k (laDbGetAllrevs (bdbDb host calls) s key)) s := rfl

theorem run_resolve {α : Type} (mine theirs : LaCodecValue) (rev : Option LaRev)
    (k : Resolution → PullProc α) :
    run (servePull host resolver) (.call (.resolve key mine theirs rev) k) s =
      run (servePull host resolver) (k (resolver key mine theirs)) s := rfl

theorem ends_of_same (kept : takesTheirs o = false) :
    Ends host env key thatrev object ids s o s := by
  refine ⟨fun _ => rfl, fun takes => ?_⟩
  rw [kept] at takes
  cases takes

/-- A replace ends the change. -/
theorem ends_of_replace {why : WriteReason} {last : Outcome} (kept : leavesMine last = false)
    (ran : run (servePull host resolver)
      (.call (.replace env.writeCalls env.writeApi key thatrev object ids why)
        fun _ => .done last : PullProc Outcome) s = some (o, s')) :
    Ends host env key thatrev object ids s o s' := by
  simp only [run, servePull] at ran
  cases replaced : laDbReplace (bdbDb host env.writeCalls) env.writeApi s (some key) (some thatrev)
      (some object) (some ids.tail) (revcount ids.length) with
  | none => simp [replaced] at ran
  | some ret =>
    simp only [replaced, Option.map_some, Option.some.injEq, Prod.mk.injEq] at ran
    obtain ⟨rfl, rfl⟩ := ran
    refine ⟨fun mine => ?_, fun _ => ⟨ret, replaced, rfl⟩⟩
    rw [kept] at mine
    cases mine

/-- A merge is neither. -/
theorem ends_of_merged {merged : Option LaCodecValue} {calls : BdbCalls} {c : ApiCalls}
    {rev : LaRev}
    (ran : run (servePull host resolver)
      (.call (.put calls c key rev merged)
        fun _ => .done (.resolved (.takeMerged merged)) : PullProc Outcome) s = some (o, s')) :
    Ends host env key thatrev object ids s o s' := by
  simp only [run, servePull] at ran
  cases put : laDbPut (bdbDb host calls) c s (some key) (some rev) merged with
  | none => simp [put] at ran
  | some ret =>
    simp only [put, Option.map_some, Option.some.injEq, Prod.mk.injEq] at ran
    obtain ⟨rfl, rfl⟩ := ran
    exact ⟨fun mine => (by cases mine), fun theirs => (by cases theirs)⟩

theorem resolveConflict_ends {rev : LaRev}
    (ran : run (servePull host resolver) (resolveConflict env key rev thatrev object ids) s =
      some (o, s')) : Ends host env key thatrev object ids s o s' := by
  rw [resolveConflict, run_get] at ran
  split at ran
  · rw [run_resolve] at ran
    split at ran
    · cases ran
      exact ends_of_same rfl
    · exact ends_of_replace rfl ran
    · exact ends_of_merged ran
  · split at ran
    · cases ran
      exact ends_of_same rfl
    · cases ran

theorem compareRevs_ends {rev : LaRev}
    (ran : run (servePull host resolver) (compareRevs env key rev thatrev object ids) s =
      some (o, s')) : Ends host env key thatrev object ids s o s' := by
  rw [compareRevs, run_getAllrevs] at ran
  split at ran
  · cases ran
    exact ends_of_same rfl
  · split at ran
    · exact ends_of_replace rfl ran
    · split at ran
      · exact resolveConflict_ends ran
      · cases ran
        exact ends_of_same rfl

theorem takeVersion_ends {mine : Option LaRev}
    (ran : run (servePull host resolver) (takeVersion env key mine thatrev object ids) s =
      some (o, s')) : Ends host env key thatrev object ids s o s' := by
  cases mine with
  | none => exact ends_of_replace rfl ran
  | some rev => exact compareRevs_ends ran

end Change

section Turn
variable {host : LaHost} {resolver : Resolver} {json : JsonLib} {urlbase : CString}
  {env : ChangeEnv} {change : LaCodecValue} {buffer : List UInt8} {s s' : BdbStore}

/-- What one change did to the store: nothing, or a replace with the version that was fetched. -/
structure Handled (host : LaHost) (json : JsonLib) (urlbase : CString) (env : ChangeEnv)
    (change : LaCodecValue) (buffer : List UInt8) (s : BdbStore) (o : Outcome) (s' : BdbStore) :
    Prop where
  mine : leavesMine o = true → s' = s
  theirs : takesTheirs o = true → ∃ key revText object ids ret,
    changeKeyRev change = some (key, revText) ∧
    fetchedVersion env key json urlbase revText buffer = some (object, ids) ∧
    laDbReplace (bdbDb host env.writeCalls) env.writeApi s (some key)
      (some (laRevScan revText env.uninitRev).2) (some object) (some ids.tail)
      (revcount ids.length) = some ret ∧ s' = ret.store

theorem handled_of_same {o : Outcome} (kept : takesTheirs o = false) :
    Handled host json urlbase env change buffer s o s := by
  refine ⟨fun _ => rfl, fun takes => ?_⟩
  rw [kept] at takes
  cases takes

theorem fetchVersion_handled {key revText : CString} {mine : Option LaRev}
    {a : Outcome × List UInt8} (named : changeKeyRev change = some (key, revText))
    (ran : run (servePull host resolver) (fetchVersion env key json urlbase revText
      (laRevScan revText env.uninitRev).2 mine buffer) s = some (a, s')) :
    Handled host json urlbase env change buffer s a.1 s' := by
  cases fetched : fetchedVersion env key json urlbase revText buffer with
  | none =>
    rcases fetchVersion_none fetched (laRevScan revText env.uninitRev).2 mine with
      trapped | ⟨why, rest, done, -⟩
    · rw [trapped] at ran
      cases ran
    · rw [done] at ran
      cases ran
      exact handled_of_same rfl
  | some version =>
    obtain ⟨object, ids⟩ := version
    rw [fetchVersion_some fetched, run_map] at ran
    obtain ⟨⟨o, s₁⟩, taken, same⟩ := Option.map_eq_some_iff.mp ran
    cases same
    have ends := takeVersion_ends taken
    refine ⟨ends.mine, fun takes => ?_⟩
    obtain ⟨ret, replaced, rfl⟩ := ends.theirs takes
    exact ⟨key, revText, object, ids, ret, named, fetched, replaced, rfl⟩

theorem handleChange_handled {a : Outcome × List UInt8}
    (ran : run (servePull host resolver) (handleChange json urlbase env change buffer) s =
      some (a, s')) : Handled host json urlbase env change buffer s a.1 s' := by
  rw [handleChange] at ran
  cases named : changeKeyRev change with
  | none =>
    rw [named] at ran
    cases ran
    exact handled_of_same rfl
  | some keyRev =>
    simp only [named, run_get] at ran
    split at ran
    · cases ran
      exact handled_of_same rfl
    · exact fetchVersion_handled named ran
    · split at ran
      · cases ran
        exact handled_of_same rfl
      · exact fetchVersion_handled named ran
    · cases ran

end Turn

section Version
variable {host : LaHost} {calls : BdbCalls} {c : ApiCalls} {s : BdbStore} {key : CString}
  {rev : LaRev} {doc : LaCodecValue} {ids : List LaStorageRev} {ret : LaDbPutReturn BdbStore}

/-- The record under the key is this version. -/
def Holds (host : LaHost) (s : BdbStore) (key : CString) (rev : LaRev) (doc : LaCodecValue)
    (ids : List LaStorageRev) : Prop :=
  ∃ d : DocRecord, s.db.lookup key = some d.bytes ∧ d.header.rev = rev.rev ∧
    d.header.docSeq = rev.seq ∧ d.header.deleted = isDeleted doc ∧ d.history = ids.tail ∧
    host.encode (replaceDoc doc) = some d.body

/-- A version that can be stored becomes the record. -/
theorem replace_holds (stores : Stores host calls c doc ids) (few : ids.length ≤ 2 ^ 15)
    (replaced : laDbReplace (bdbDb host calls) c s (some key) (some rev) (some doc)
      (some ids.tail) (revcount ids.length) = some ret) : Holds host ret.store key rev doc ids := by
  have ok : ret.result = .ok :=
    laDbReplace_ok replaced stores.through stores.object stores.buffer stores.copied stores.encodes
  rcases laDbReplace_bdb replaced with ⟨-, failed⟩ | ⟨data, o, -, encoded, created, rfl⟩
  · exact absurd ok (failed stores.through)
  cases ids with
  | nil => exact absurd created (createObject_negative _ _ _ _ _ _ _ o)
  | cons first rest =>
    have count : revcount (first :: rest).length = rest.length := by simp [revcount]
    have size := stores.small data encoded
    rw [List.length_cons] at few size
    rw [count, List.tail_cons] at created
    obtain ⟨name, same, laid⟩ := createObject_history (by omega) (by omega) created
    have marked : LaidOut (markReplaced o (isDeleted doc) rev.seq) rest data :=
      ⟨laid.counted, laid.length, laid.content⟩
    obtain ⟨d, db, header, history, rfl⟩ := written_record calls s marked (by omega)
    have named : (markReplaced o (isDeleted doc) rev.seq).key = key := name
    refine ⟨d, ?_, ?_, ?_, ?_, history, encoded⟩
    · rw [db, named, AList.lookup_insert]
    · rw [header]
      exact same
    · rw [header]
      rfl
    · rw [header]
      rfl

/-- What the API shows of a version: the document under the announced revision, or nothing of
a deletion; and all its revisions, as far as they can be read. -/
structure Delivered (host : LaHost) (s : BdbStore) (key : CString) (rev : LaRev)
    (doc : LaCodecValue) (ids : List LaStorageRev) : Prop where
  live : isDeleted doc = false → ∀ calls : BdbCalls, calls.dbGet = none →
    laDbGet (bdbDb host calls) s key none = ⟨.ok, some (replaceDoc doc), some rev⟩
  deleted : isDeleted doc = true → ∀ calls : BdbCalls, calls.dbGet = none →
    (laDbGet (bdbDb host calls) s key none).result = .notFound
  history : ids.tail.length ≤ laObjectMaxRevisionCount → ∀ calls : BdbCalls, calls.Succeed →
    laDbGetAllrevs (bdbDb host calls) s key = ((ids.tail.length : Int), some ids.tail)

theorem Holds.delivered (trips : RoundTrips host (replaceDoc doc))
    (holds : Holds host s key rev doc ids) : Delivered host s key rev doc ids := by
  obtain ⟨d, stored, newRev, docSeq, marked, history, encoded⟩ := holds
  obtain ⟨data, inflated, loaded⟩ := encode_shown trips encoded
  constructor
  · intro alive calls ok
    have record : LiveRecord host s key d (replaceDoc doc) :=
      ⟨stored, marked.trans alive, by rw [inflated, Option.bind_some, loaded],
        isTombstone_of_absent (replaceDoc_get_deleted doc)⟩
    rw [record.get ok, newRev, docSeq]
  · intro gone calls ok
    obtain ⟨-, header, -⟩ := objectOfValue_docRecord d calls.heap key
    simp [laDbGet, bdbDb, bdbDriver, bdbLaStorageGet, ok, stored, header, marked, gone]
  · intro few calls ok
    rw [← history] at few ⊢
    simp only [laDbGetAllrevs, bdbDb, bdbDriver, getAllRevs_docRecord d calls ok stored few]

end Version

section Run
variable {host : LaHost} {resolver : Resolver} {json : JsonLib}

/-- The key of a change. -/
def changeKey (i : FeedEntry) : Option CString := (changeKeyRev i.change).map Prod.fst

/-- The record of a key, as long as the loop goes on. -/
def recordIn (l : Option LoopState) (key : CString) : Option (List UInt8) :=
  l.bind fun l => l.store.db.lookup key

/-- A change of another key leaves the record. -/
theorem handleChange_frame {urlbase : CString} {env : ChangeEnv} {change : LaCodecValue}
    {buffer : List UInt8} {s s' : BdbStore} {a : Outcome × List UInt8}
    (ran : run (servePull host resolver) (handleChange json urlbase env change buffer) s =
      some (a, s')) {key : CString}
    (other : (changeKeyRev change).map Prod.fst ≠ some key) :
    s'.db.lookup key = s.db.lookup key := by
  cases named : changeKeyRev change with
  | none =>
    rw [handleChange, named] at ran
    cases ran
    rfl
  | some keyRev =>
    have ne : key ≠ keyRev.1 := by
      rintro rfl
      exact other (by rw [named]; rfl)
    have keeps : ∀ c t r t', callKey c = keyRev.1 → servePull host resolver c t = some (r, t') →
        t.db.lookup key = s.db.lookup key → t'.db.lookup key = s.db.lookup key := by
      intro c t r t' about served same
      rw [servePull_frame served (about ▸ ne), same]
    exact run_preserves keeps ((handleChange_writesLast named).allCalls fun _ made => made.1) rfl
      ran

/-- A turn changes the record of its own key only. -/
theorem turn_frame {urlbase : CString} {l : Option LoopState} {i : FeedEntry} {key : CString}
    (goes : ((event (turnStep host resolver json urlbase) l i).after).isSome = true)
    (other : changeKey i ≠ some key) :
    recordIn (turnStep host resolver json urlbase l i).2 key = recordIn l key := by
  cases l with
  | none => rfl
  | some l =>
    cases ran : run (servePull host resolver) (handleChange json urlbase i.env i.change l.buffer)
        l.store with
    | none => simp [event, turnStep, ran] at goes
    | some done =>
      obtain ⟨a, s'⟩ := done
      simp only [turnStep, ran, recordIn, Option.bind_some]
      exact handleChange_frame ran other

/-- A loop that came to its end went on after every turn. -/
theorem turns_go_on {urlbase : CString} {l : Option LoopState} {is : List FeedEntry}
    (ended : (final (turnStep host resolver json urlbase) l is).isSome = true) :
    ∀ e ∈ events (turnStep host resolver json urlbase) l is, e.after.isSome = true := by
  induction is generalizing l with
  | nil => exact fun e he => absurd he List.not_mem_nil
  | cons i rest ih =>
    intro e he
    rcases List.mem_cons.mp he with rfl | he
    · cases crashed : (turnStep host resolver json urlbase l i).2 with
      | some _ => simp [event, crashed]
      | none =>
        rw [final, crashed, final_crashed] at ended
        cases ended
    · exact ih ended e he

/-- A version that the turn has in hand can be stored and read back. -/
def Storable (host : LaHost) (json : JsonLib) (urlbase : CString) (e : Turn) : Prop :=
  ∀ l ∈ e.before, ∀ key revText object ids, changeKeyRev e.input.change = some (key, revText) →
    fetchedVersion e.input.env key json urlbase revText l.buffer = some (object, ids) →
      Stores host e.input.env.writeCalls e.input.env.writeApi object ids ∧
        RoundTrips host (replaceDoc object) ∧ ids.length ≤ 2 ^ 15

/-- The turn's version is delivered in `s`. -/
def TurnDelivered (host : LaHost) (json : JsonLib) (urlbase : CString) (s : BdbStore) (e : Turn) :
    Prop :=
  ∃ l key revText object ids, e.before = some l ∧
    changeKeyRev e.input.change = some (key, revText) ∧
    fetchedVersion e.input.env key json urlbase revText l.buffer = some (object, ids) ∧
    Delivered host s key (laRevScan revText e.input.env.uninitRev).2 object ids

/-- The database after a run of the puller, against the one before it. -/
structure PullLeaves (host : LaHost) (resolver : Resolver) (json : JsonLib) (env : RunEnv)
    (p : Puller) (s s' : BdbStore) : Prop where
  taken : ∀ e ∈ turns host resolver json env p s, ∀ o, e.output = some o →
    takesTheirs o = true → TurnDelivered host json p.urlbase s' e
  left : ∀ e ∈ turns host resolver json env p s, ∀ o, e.output = some o →
    leavesMine o = true → ∀ key, changeKey e.input = some key →
      s'.db.lookup key = s.db.lookup key
  others : ∀ key, (∀ i ∈ loopEntries json env p, changeKey i ≠ some key) →
    s'.db.lookup key = s.db.lookup key

/-- What a turn did, from what it came to. -/
theorem turn_handled {urlbase : CString} {l : LoopState} {i : FeedEntry} {o : Outcome}
    (came : (turnStep host resolver json urlbase (some l) i).1 = some o) :
    ∃ l', (turnStep host resolver json urlbase (some l) i).2 = some l' ∧
      Handled host json urlbase i.env i.change l.buffer l.store o l'.store := by
  simp only [turnStep] at came ⊢
  cases ran : run (servePull host resolver) (handleChange json urlbase i.env i.change l.buffer)
      l.store with
  | none => simp [ran] at came
  | some done =>
    simp only [ran, Option.some.injEq] at came ⊢
    subst came
    exact ⟨_, rfl, handleChange_handled ran⟩

/-- After a run of the puller on a feed that names no document twice, every version that the
loop took is what the API shows, and every other record is as it was before the run. Merges
apart, that is all that a run does. -/
theorem pull_leaves {env : RunEnv} {p : Puller} {s s' : BdbStore} {ret : PullReturn}
    (ran : run (servePull host resolver) (laPullRun json env p) s = some (ret, s'))
    (once : ((loopEntries json env p).filterMap changeKey).Nodup)
    (storable : ∀ e ∈ turns host resolver json env p s, Storable host json p.urlbase e) :
    PullLeaves host resolver json env p s s' := by
  obtain ⟨-, last⟩ := run_laPullRun_turns ran
  obtain ⟨l', ended, rfl⟩ := Option.map_eq_some_iff.mp last
  have goes : ∀ e ∈ turns host resolver json env p s, e.after.isSome = true :=
    turns_go_on (by rw [ended]; rfl)
  have frame : ∀ l i key,
      (event (turnStep host resolver json p.urlbase) l i).after.isSome = true →
        changeKey i ≠ some key →
          recordIn (turnStep host resolver json p.urlbase l i).2 key = recordIn l key :=
    fun l i key goes other => turn_frame goes other
  -- What a turn finds of its key was there before the run, and what it leaves stays.
  have seen := view_touched_once frame goes once
  rw [ended] at seen
  have step : ∀ e ∈ turns host resolver json env p s, ∀ o, e.output = some o →
      ∃ l l₁, e.before = some l ∧ e.after = some l₁ ∧
        Handled host json p.urlbase e.input.env e.input.change l.buffer l.store o l₁.store := by
    intro e he o came
    have made := event_of_mem he
    cases before : e.before with
    | none =>
      rw [made, before] at came
      cases came
    | some l =>
      rw [before] at made
      rw [made] at came
      obtain ⟨l₁, after, handled⟩ := turn_handled came
      exact ⟨l, l₁, rfl, by rw [made]; exact after, handled⟩
  constructor
  · intro e he o came takes
    obtain ⟨l, l₁, before, after, handled⟩ := step e he o came
    obtain ⟨key, revText, object, ids, ret', named, fetched, replaced, store⟩ :=
      handled.theirs takes
    obtain ⟨stores, trips, few⟩ := storable e he l before key revText object ids named fetched
    have holds := replace_holds stores few replaced
    have stays := (seen e he key (by rw [changeKey, named]; rfl)).2
    rw [after] at stays
    have same : l'.store.db.lookup key = ret'.store.db.lookup key := by
      rw [← store]
      exact stays
    refine ⟨l, key, revText, object, ids, before, named, fetched, ?_⟩
    rw [Holds, ← same] at holds
    exact Holds.delivered trips holds
  · intro e he o came leaves key named
    obtain ⟨l, l₁, before, after, handled⟩ := step e he o came
    obtain ⟨found, stays⟩ := seen e he key named
    rw [before] at found
    rw [after] at stays
    have kept := handled.mine leaves
    calc l'.store.db.lookup key = l₁.store.db.lookup key := stays
      _ = l.store.db.lookup key := by rw [kept]
      _ = s.db.lookup key := found
  · intro key untouched
    have kept := view_untouched frame goes untouched
    rw [ended] at kept
    exact kept

end Run

section Runs
private def emptyDocHost : LaHost := ⟨emptyObjectCodec, ⟨fun _ => zeroRev, fun _ => []⟩, none⟩

private def servedKey : CString := CString.ofBytes [97]

private def servedRev : LaRev := ⟨2, uniformRev 2⟩

/-- Its revision before that. -/
private def servedIds : List LaStorageRev := [uniformRev 2, uniformRev 1]

private def servedFeed : LaCodecValue := changesFeed (.integer 1) [(servedKey, servedRev)]

private def server : RunEnv where
  feed := fun _ => (⟨jsonText servedFeed, true⟩, 200)
  changes := fun _ => { remote := fun _ => ⟨jsonText (versionOf [] servedIds), true⟩ }

private def servedTexts : JsonLib := textsOf [servedFeed, versionOf [] servedIds]

private def newPuller : Puller :=
  ⟨CString.ofBytes [117], CString.ofBytes [117], 63, none, false⟩

private def servedChange : LaCodecValue :=
  .object [(seqName, .integer 1), (idName, .string servedKey),
    (changesName, .array [.object [(revName, .string (textOfRev servedRev))]])]

private theorem server_entries :
    loopEntries servedTexts server newPuller = [⟨server.changes 0, servedChange⟩] := by
  have feed : servedTexts.loadb (jsonText servedFeed) = some servedFeed := textsOf_loadb _ _
  simp [loopEntries, initChangesFeed, newPuller, server, JsonLib.load, feed]
  rfl

private theorem server_version (key revText : CString) :
    fetchedVersion (server.changes 0) key servedTexts newPuller.urlbase revText [] =
      some (.object [], servedIds) := by
  have other : (jsonText servedFeed == jsonText (versionOf [] servedIds)) = false := by
    decide +kernel
  have version : servedTexts.loadb (jsonText (versionOf [] servedIds)) =
      some (versionOf [] servedIds) := by
    simp [servedTexts, textsOf, other]
  have parsed := parseRevisions_versionOf [] servedIds (by simp)
  simp [fetchedVersion, server, JsonLib.load, version, parsed, scanIds_hexText]

/-- A document with two revisions is pulled into an empty database. -/
theorem pull_leaves_document :
    ∃ ret s', run (servePull emptyDocHost resolveMine) (laPullRun servedTexts server newPuller)
        bdbEmpty = some (ret, s') ∧
      PullLeaves emptyDocHost resolveMine servedTexts server newPuller bdbEmpty s' := by
  have returns : (run (servePull emptyDocHost resolveMine)
      (laPullRun servedTexts server newPuller) bdbEmpty).isSome = true := by
    decide +kernel
  obtain ⟨⟨ret, s'⟩, ran⟩ := Option.isSome_iff_exists.mp returns
  refine ⟨ret, s', ran, pull_leaves ran ?_ ?_⟩
  · rw [server_entries]
    exact List.nodup_singleton _
  · intro e he l before key revText object ids named fetched
    rw [turns, server_entries] at he
    obtain rfl := List.mem_singleton.mp he
    cases before
    rw [event, server_version] at fetched
    cases fetched
    refine ⟨⟨rfl, rfl, rfl, ⟨rfl, rfl, rfl⟩, rfl, ?_⟩, emptyObjectCodec_roundTrips _ _, by decide⟩
    rintro data ⟨⟩
    decide

end Runs

end PullDelivers
