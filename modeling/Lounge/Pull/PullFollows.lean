import Lounge.Lib.Follower
import Lounge.Pull.PullDecision
import Lounge.Pull.PullDelivers

/-!
# The puller as a follower

A database that only the puller writes to, and a server that announces what is new and
hands out the versions. One turn of the loop is one announcement heard, so a run of the
puller is a round of a follower, and a series of runs is what becomes of one.
-/

namespace PullFollows
open ObjectStore CodecValue CouchRevgen RevScan LoungeApi ApiWrites BdbDriver BdbRecord BdbPut
  BdbApi Process IdleRuns PullModel PullTurns PullCalls PullWrites PullTwice PullDecision
  PullDelivers Follower

/-- A version of a document at the server: its revision, the ones behind it, newest first. -/
structure Version where
  rev : LaRev
  older : List LaStorageRev
  doc : LaCodecValue

def Version.ids (v : Version) : List LaStorageRev := v.rev.rev :: v.older

/-- What the server has. -/
abbrev Remote := CString → Option Version

/-- The version held is given up for the other one. -/
def takes (resolver : Resolver) (key : CString) (h v : Version) : Bool :=
  if isDeleted h.doc then true
  else if h.rev.rev = v.rev.rev then false
  else if laStorageRevsOverlap h.ids v.ids then true
  else if laStorageRevsOverlap v.ids h.ids then false
  else
    match resolver key (replaceDoc h.doc) v.doc with
    | .takeTheirs => true
    | _ => false

/-- The resolver takes one of the two versions. -/
def NeverMerges (resolver : Resolver) : Prop :=
  ∀ key mine theirs merged, resolver key mine theirs ≠ .takeMerged merged

/-- The record of a key is this version, with a document and a history that can be read. -/
def ShowsVersion (host : LaHost) (s : BdbStore) (key : CString) : Option Version → Prop
  | none => s.db.lookup key = none
  | some v => Holds host s key v.rev v.doc v.ids ∧ RoundTrips host (replaceDoc v.doc) ∧
    v.older.length ≤ laObjectMaxRevisionCount

/-- The records of the database are these versions. -/
def Shows (host : LaHost) (s : BdbStore) (held : Remote) : Prop :=
  ∀ key, ShowsVersion host s key (held key)

/-- The change announces the version that the server has, and the version can be had and
stored. -/
structure Announces (host : LaHost) (json : JsonLib) (urlbase : CString) (env : ChangeEnv)
    (change : LaCodecValue) (key : CString) (v : Version) : Prop where
  named : ∃ revText, changeKeyRev change = some (key, revText) ∧
    (laRevScan revText env.uninitRev).2 = v.rev ∧
    Fetches json urlbase env key revText [] v.doc v.ids
  quiet : Quiet env
  stores : Stores host env.writeCalls env.writeApi v.doc v.ids
  trips : RoundTrips host (replaceDoc v.doc)
  created : env.writeApi.created = true
  few : v.older.length ≤ laObjectMaxRevisionCount

section Turn
variable {host : LaHost} {resolver : Resolver} {json : JsonLib} {urlbase : CString}
  {env : ChangeEnv} {change : LaCodecValue} {key : CString} {s s' : BdbStore} {h v : Version}

theorem laDbGet_absent (host : LaHost) {calls : BdbCalls} (reads : calls.dbGet = none)
    (absent : s.db.lookup key = none) :
    (laDbGet (bdbDb host calls) s key none).result = .notFound := by
  simp [laDbGet, bdbDb, bdbDriver, bdbLaStorageGet, reads, absent]

theorem createObject_returns (heap : FlatMemory.Memory) (key : CString) (rev : LaStorageRev)
    (data : List UInt8) (length : UInt32) (history : List LaStorageRev) {count : Nat}
    (few : count ≤ laObjectMaxRevisionCount) :
    ∃ o, laStorageCreateObject true heap key rev data length (some history) count =
      some (some o) := by
  rw [laObjectMaxRevisionCount] at few
  have small : ¬ maxCopy ≤ count * 16 % 2 ^ 64 := by
    rw [maxCopy]
    omega
  rw [laStorageCreateObject, if_neg (by simp)]
  simp only [if_neg small]
  exact ⟨_, rfl⟩

/-- A replace with a version that can be stored returns. -/
theorem replace_returns (s : BdbStore) (key : CString) {calls : BdbCalls} {c : ApiCalls}
    (stores : Stores host calls c v.doc v.ids)
    (created : c.created = true) (few : v.older.length ≤ laObjectMaxRevisionCount) :
    ∃ ret, laDbReplace (bdbDb host calls) c s (some key) (some v.rev) (some v.doc)
      (some v.ids.tail) (revcount v.ids.length) = some ret := by
  obtain ⟨data, encoded⟩ := Option.isSome_iff_exists.mp stores.encodes
  have count : revcount v.ids.length = v.older.length := by simp [revcount, Version.ids]
  obtain ⟨o, made⟩ := createObject_returns c.heap key v.rev.rev data (UInt32.ofNat data.length)
    v.ids.tail few
  rw [count]
  simp only [laDbReplace, bdbDb, stores.object, stores.buffer, stores.copied, encoded, created,
    made, Option.join_some, bdbDriver, bdbLaStorageReplace_through stores.through]
  exact ⟨_, rfl⟩

/-- Where the loop replaces the record, it is the announced version. -/
theorem run_replace (announced : Announces host json urlbase env change key v)
    (why : WriteReason) (last : Outcome) :
    ∃ s', run (servePull host resolver)
        (.call (.replace env.writeCalls env.writeApi key v.rev v.doc v.ids why)
          fun _ => .done last : PullProc Outcome) s = some (last, s') ∧
      ShowsVersion host s' key (some v) := by
  obtain ⟨ret, replaced⟩ := replace_returns s key announced.stores announced.created
    announced.few
  refine ⟨ret.store, ?_, replace_holds announced.stores ?_ replaced, announced.trips,
    announced.few⟩
  · simp [run, servePull, replaced]
  · have few := announced.few
    rw [laObjectMaxRevisionCount] at few
    simp only [Version.ids, List.length_cons]
    omega

/-- A version that is missing here is fetched and handled. -/
theorem run_missing (announced : Announces host json urlbase env change key v)
    (mine : Option LaRev)
    (missing : missingHere (laDbGet (bdbDb host env.getCalls) s key none) v.rev = some mine)
    {held : Option Version}
    (handled : ∃ o s', run (servePull host resolver)
        (takeVersion env key mine v.rev v.doc v.ids) s = some (o, s') ∧
      ShowsVersion host s' key held) :
    ∃ o s', run (servePull host resolver) (handleChange json urlbase env change []) s =
        some ((o, []), s') ∧ ShowsVersion host s' key held := by
  obtain ⟨revText, named, scanned, fetches⟩ := announced.named
  obtain ⟨o, s', ran, shows⟩ := handled
  refine ⟨o, s', ?_, shows⟩
  rw [← scanned] at missing
  rw [(handleChange_missing (i := ⟨env, change⟩) resolver json urlbase named missing []).1,
    fetchVersion_quiet announced.quiet fetches, scanned, run_map, ran]
  rfl

/-- The revisions that are compared with those of the server. -/
theorem localRevs_shown {calls : BdbCalls} (delivered : Delivered host s key h.rev h.doc h.ids)
    (reads : calls.Succeed) (few : h.older.length ≤ laObjectMaxRevisionCount) :
    localRevs true h.rev.rev (laDbGetAllrevs (bdbDb host calls) s key) = some h.ids := by
  rw [delivered.history few calls reads]
  cases older : h.older with
  | nil => simp [localRevs, Version.ids, older]
  | cons first rest => simp [localRevs, Version.ids, older]

/-- A version that is here and there is compared. -/
theorem run_compare (merges : NeverMerges resolver)
    (announced : Announces host json urlbase env change key v)
    (delivered : Delivered host s key h.rev h.doc h.ids) (live : isDeleted h.doc = false)
    (differs : h.rev.rev ≠ v.rev.rev) (shows : ShowsVersion host s key (some h)) :
    ∃ o s', run (servePull host resolver) (compareRevs env key h.rev v.rev v.doc v.ids) s =
        some (o, s') ∧
      ShowsVersion host s' key (hear (takes resolver key) (some h) (some v)) := by
  have quiet := announced.quiet
  have mine := localRevs_shown delivered quiet.allrevsCalls shows.2.2
  simp only [compareRevs, run_getAllrevs, quiet.localAllocated, mine]
  cases behind : laStorageRevsOverlap h.ids v.ids with
  | true =>
    have taken : takes resolver key h v = true := by simp [takes, live, differs, behind]
    rw [hear_taken taken]
    simp only [if_true]
    obtain ⟨s', ran, shown⟩ := run_replace announced (.behind h.rev) .replaced
    exact ⟨_, s', ran, shown⟩
  | false =>
    cases ahead : laStorageRevsOverlap v.ids h.ids with
    | true =>
      have kept : takes resolver key h v = false := by simp [takes, live, differs, behind, ahead]
      rw [hear_kept kept]
      exact ⟨.ahead, s, rfl, shows⟩
    | false =>
      simp only [Bool.false_eq_true, if_false, Bool.not_false, if_true, resolveConflict, run_get,
        delivered.live live _ quiet.conflictCalls.dbGet, run_resolve]
      cases resolved : resolver key (replaceDoc h.doc) v.doc with
      | takeMine =>
        have kept : takes resolver key h v = false := by
          simp [takes, live, differs, behind, ahead, resolved]
        rw [hear_kept kept]
        exact ⟨_, s, rfl, shows⟩
      | takeTheirs =>
        have taken : takes resolver key h v = true := by
          simp [takes, live, differs, behind, ahead, resolved]
        rw [hear_taken taken]
        obtain ⟨s', ran, shown⟩ := run_replace announced .theirs (.resolved .takeTheirs)
        exact ⟨_, s', ran, shown⟩
      | takeMerged merged => exact absurd resolved (merges _ _ _ _)

/-- A turn is an announcement heard. -/
theorem run_turn (merges : NeverMerges resolver)
    (announced : Announces host json urlbase env change key v) {held : Option Version}
    (shows : ShowsVersion host s key held) :
    ∃ o s', run (servePull host resolver) (handleChange json urlbase env change []) s =
        some ((o, []), s') ∧
      ShowsVersion host s' key (hear (takes resolver key) held (some v)) := by
  have reads := announced.quiet.getCalls.dbGet
  cases held with
  | none =>
    have got := laDbGet_absent host reads shows
    refine run_missing announced none (by simp [missingHere, got]) ?_
    rw [none_hear]
    obtain ⟨s', ran, shown⟩ := run_replace announced .added .added
    exact ⟨_, s', ran, shown⟩
  | some h =>
    have delivered := shows.1.delivered shows.2.1
    cases deleted : isDeleted h.doc with
    | true =>
      have got := delivered.deleted deleted _ reads
      have taken : takes resolver key h v = true := by simp [takes, deleted]
      refine run_missing announced none (by simp [missingHere, got]) ?_
      rw [hear_taken taken]
      obtain ⟨s', ran, shown⟩ := run_replace announced .added .added
      exact ⟨_, s', ran, shown⟩
    | false =>
      have got := delivered.live deleted _ reads
      by_cases same : h.rev.rev = v.rev.rev
      · obtain ⟨revText, named, scanned, -⟩ := announced.named
        have kept : takes resolver key h v = false := by simp [takes, deleted, same]
        rw [hear_kept kept]
        have idle : Idle (servePull host resolver) isWrite (handleChange json urlbase env change [])
            s (.current, []) :=
          idle_current named (by rw [got]) (by rw [got])
            (same.trans (congrArg LaRev.rev scanned.symm))
        exact ⟨_, s, idle.returns, shows⟩
      · exact run_missing announced (some h.rev) (by simp [missingHere, got, same])
          (run_compare merges announced delivered deleted same shows)

end Turn

section Loop
variable {host : LaHost} {resolver : Resolver} {json : JsonLib} {urlbase : CString}
  {s s' : BdbStore} {held before now : Remote}

/-- The keys that a feed names. -/
def newsOf (changes : List LaCodecValue) : List CString :=
  changes.filterMap fun change => (changeKeyRev change).map Prod.fst

theorem ShowsVersion.congr {key : CString} {v : Option Version}
    (same : s'.db.lookup key = s.db.lookup key) (shows : ShowsVersion host s key v) :
    ShowsVersion host s' key v := by
  cases v with
  | none => exact same.trans shows
  | some v =>
    obtain ⟨⟨d, stored, record⟩, readable⟩ := shows
    exact ⟨⟨d, same.trans stored, record⟩, readable⟩

/-- The changes from number `i` on announce what the server has. -/
def AllAnnounce (host : LaHost) (json : JsonLib) (urlbase : CString) (envs : Nat → ChangeEnv)
    (now : Remote) : Nat → List LaCodecValue → Prop
  | _, [] => True
  | i, change :: rest =>
    (∃ key v, now key = some v ∧ Announces host json urlbase (envs i) change key v) ∧
      AllAnnounce host json urlbase envs now (i + 1) rest

/-- The loop hears all that the feed announces. -/
theorem run_loop (merges : NeverMerges resolver)
    {envs : Nat → ChangeEnv} {i : Nat} {changes : List LaCodecValue}
    (announced : AllAnnounce host json urlbase envs now i changes) (shows : Shows host s held) :
    ∃ handled s', run (servePull host resolver) (handleChanges json urlbase envs i changes []) s =
        some (handled, s') ∧
      Shows host s' (hearKeys (takes resolver) (newsOf changes) held now) := by
  induction changes generalizing i s held with
  | nil => exact ⟨[], s, rfl, shows⟩
  | cons change rest ih =>
    obtain ⟨⟨key, v, has, first⟩, later⟩ := announced
    obtain ⟨revText, named, -, -⟩ := first.named
    obtain ⟨o, s₁, ran, shown⟩ := run_turn merges first (shows key)
    have heard : Shows host s₁ (hearKeys (takes resolver) [key] held now) := by
      intro other
      by_cases same : other = key
      · subst same
        rw [hearKeys, if_pos (List.mem_singleton.mpr rfl), has]
        exact shown
      · rw [hearKeys, if_neg (by simpa using same)]
        refine (shows other).congr (handleChange_frame ran ?_)
        rw [named]
        exact fun eq => same (Option.some.inj eq).symm
    obtain ⟨handled, s', ranRest, shownRest⟩ := ih later heard
    have news : newsOf (change :: rest) = key :: newsOf rest := by
      rw [newsOf, List.filterMap_cons_some (b := key) (by rw [named]; rfl)]
      rfl
    refine ⟨(change, o) :: handled, s', ?_, ?_⟩
    · rw [handleChanges, run_bind, ran, Option.bind_some, run_map, ranRest]
      rfl
    · rw [news, hearKeys_cons]
      exact shownRest

end Loop

section Rounds

/-- The feed comes, whatever URL is asked for; it announces versions that the server has, and all
that are new. -/
structure Receives (host : LaHost) (json : JsonLib) (urlbase : CString) (env : RunEnv)
    (before now : Remote) : Prop where
  curl : env.init.curl = true
  urlBuilt : env.init.urlBuilt = true
  setup : env.init.setup = true
  buffer : env.init.buffer = true
  jsonAllocated : env.jsonAllocated = true
  againBuilt : env.again.urlBuilt = true
  answers : ∀ url, (env.feed url).1.ok = true ∧ (env.feed url).2 = 200 ∧ ∃ feed changes,
    json.loadb (env.feed url).1.delivered = some feed ∧
    feed.laCodecObjectGet resultsName = some (.array changes) ∧
    AllAnnounce host json urlbase env.changes now 0 changes ∧
    ∀ key, key ∉ newsOf changes → now key = before key

/-- No feed comes. -/
structure Refuses (env : RunEnv) : Prop where
  urlBuilt : env.init.urlBuilt = true
  unheard : ∀ url, (env.feed url).1.ok = false ∨ (env.feed url).2 ≠ 200

/-- The runs of one puller, as long as none crashes. -/
def pullRounds (host : LaHost) (resolver : Resolver) (json : JsonLib) :
    Puller → BdbStore → List RunEnv → Option (Puller × BdbStore)
  | p, s, [] => some (p, s)
  | p, s, env :: rest =>
    (run (servePull host resolver) (laPullRun json env p) s).bind fun ended =>
      pullRounds host resolver json ended.1.puller ended.2 rest

/-- A server that had `before` meets the runs with what it has then, where it is heard. From one
of these to the next a document is not lost, and `next` says how its version may change. -/
inductive Served (next : Version → Version → Prop) (host : LaHost) (json : JsonLib)
    (urlbase : CString) : Remote → List RunEnv → List Remote → Prop
  | start (before : Remote) : Served next host json urlbase before [] []
  | refused {before : Remote} {env : RunEnv} {envs : List RunEnv} {nows : List Remote}
      (refuses : Refuses env) (rest : Served next host json urlbase before envs nows) :
      Served next host json urlbase before (env :: envs) nows
  | received {before now : Remote} {env : RunEnv} {envs : List RunEnv} {nows : List Remote}
      (receives : Receives host json urlbase env before now)
      (goes : ∀ key, ∀ h ∈ before key, ∃ v ∈ now key, next h v)
      (rest : Served next host json urlbase now envs nows) :
      Served next host json urlbase before (env :: envs) (now :: nows)

variable {next : Version → Version → Prop} {host : LaHost} {resolver : Resolver} {json : JsonLib}
  {p : Puller} {env : RunEnv} {s : BdbStore} {held before now : Remote}

theorem initChangesFeed_returns {env : FeedEnv} (built : env.urlBuilt = true) :
    ∃ done q, initChangesFeed env p = some (done, q) := by
  rw [initChangesFeed]
  split
  · exact ⟨_, _, rfl⟩
  · cases p.lastSeq with
    | none => exact ⟨_, _, rfl⟩
    | some lastSeq =>
      simp only [built]
      exact ⟨_, _, rfl⟩

/-- A run without a feed leaves the database. -/
theorem run_refused (host : LaHost) (resolver : Resolver) (json : JsonLib) (p : Puller)
    (s : BdbStore) (refuses : Refuses env) :
    ∃ q, run (servePull host resolver) (laPullRun json env p) s = some (⟨-1, q, []⟩, s) ∧
      q.urlbase = p.urlbase := by
  obtain ⟨done, q, init⟩ := initChangesFeed_returns (p := p) refuses.urlBuilt
  refine ⟨q, ?_, (initChangesFeed_keeps init).1⟩
  cases done with
  | false => simp [laPullRun, init, run]
  | true =>
    have silent : (!(env.feed q.url).1.ok || (env.feed q.url).2 != 200) = true := by
      rcases refuses.unheard q.url with failed | other
      · simp [failed]
      · simp [other]
    simp only [laPullRun, init]
    rw [if_pos silent]
    rfl

/-- A run with one goes through the loop, and what follows does not crash. -/
theorem laPullRun_received (receives : Receives host json p.urlbase env before now) :
    ∃ q changes, laPullRun json env p =
        (handleChanges json p.urlbase env.changes 0 changes []).bind (finishRun env q) ∧
      q.urlbase = p.urlbase ∧
      AllAnnounce host json p.urlbase env.changes now 0 changes ∧
      ∀ key, key ∉ newsOf changes → now key = before key := by
  have begins : ∃ q, initChangesFeed env.init p = some (true, q) := by
    simp only [initChangesFeed, receives.curl, receives.urlBuilt, receives.setup, receives.buffer]
    cases p.lastSeq with
    | none => exact ⟨_, rfl⟩
    | some lastSeq => exact ⟨_, rfl⟩
  obtain ⟨q, init⟩ := begins
  have base := (initChangesFeed_keeps init).1
  obtain ⟨ok, status, feed, changes, loaded, results, announced, complete⟩ :=
    receives.answers q.url
  have object : feed.laCodecIsObject = true := by
    cases feed with
    | object members => rfl
    | _ => cases results
  refine ⟨{ q with lastSeq := (feed.laCodecObjectGet lastSeqName).bind json.dumps }, changes, ?_,
    base, announced, complete⟩
  simp [laPullRun, init, ok, status, JsonLib.load, receives.jsonAllocated, loaded, object, results,
    base]

theorem run_finish (host : LaHost) (resolver : Resolver) (p : Puller) (s : BdbStore)
    (built : env.again.urlBuilt = true) (handled : List (LaCodecValue × Outcome)) :
    ∃ ret, run (servePull host resolver) (finishRun env p handled) s = some (ret, s) ∧
      ret.puller.urlbase = p.urlbase := by
  rw [finishRun]
  cases p.continuous with
  | false => exact ⟨_, rfl, rfl⟩
  | true =>
    obtain ⟨done, q, init⟩ := initChangesFeed_returns (p := p) built
    rw [if_pos rfl, init]
    exact ⟨_, rfl, (initChangesFeed_keeps init).1⟩

/-- A run with one is a round. -/
theorem run_received (merges : NeverMerges resolver)
    (receives : Receives host json p.urlbase env before now)
    (heard : ∀ key, hear (takes resolver key) (held key) (before key) = held key)
    (shows : Shows host s held) :
    ∃ ret s', run (servePull host resolver) (laPullRun json env p) s = some (ret, s') ∧
      ret.puller.urlbase = p.urlbase ∧ Shows host s' (hearAll (takes resolver) held now) := by
  obtain ⟨q, changes, loop, base, announced, complete⟩ := laPullRun_received receives
  obtain ⟨handled, s', ran, shown⟩ := run_loop merges announced shows
  obtain ⟨ret, finished, same⟩ :=
    run_finish host resolver q s' receives.againBuilt handled
  refine ⟨ret, s', ?_, same.trans base, ?_⟩
  · rw [loop, run_bind, ran, Option.bind_some]
    exact finished
  · rw [← hearKeys_complete heard complete]
    exact shown

/-- Round after round, the database shows what a follower holds. -/
theorem rounds_follow (merges : NeverMerges resolver)
    {envs : List RunEnv} {nows : List Remote}
    (served : Served next host json p.urlbase before envs nows)
    (heard : ∀ key, hear (takes resolver key) (held key) (before key) = held key)
    (shows : Shows host s held) :
    ∃ p' s', pullRounds host resolver json p s envs = some (p', s') ∧
      Shows host s' (nows.foldl (hearAll (takes resolver)) held) := by
  generalize same : p.urlbase = urlbase at served
  induction served generalizing p s held with
  | start before => exact ⟨p, s, rfl, shows⟩
  | refused refuses rest ih =>
    obtain ⟨q, ran, base⟩ := run_refused host resolver json p s refuses
    obtain ⟨p', s', later, shown⟩ := ih heard shows (base.trans same)
    exact ⟨p', s', by rw [pullRounds, ran]; exact later, shown⟩
  | received receives goes rest ih =>
    rw [← same] at receives
    obtain ⟨ret, s₁, ran, base, shown⟩ := run_received merges receives heard shows
    obtain ⟨p', s', later, shown'⟩ := ih (fun key => hear_again _ _) shown (base.trans same)
    exact ⟨p', s', by rw [pullRounds, ran]; exact later, shown'⟩

/-- What the server has had, from one time to the next. -/
theorem Served.isChain {urlbase : CString} {envs : List RunEnv} {nows : List Remote}
    (served : Served next host json urlbase before envs nows) :
    List.IsChain (fun a b : Remote => ∀ key, ∀ h ∈ a key, ∃ v ∈ b key, next h v)
      (before :: nows) := by
  induction served with
  | start => exact List.isChain_singleton _
  | refused _ _ ih => exact ih
  | received _ goes _ ih => exact List.isChain_cons_cons.mpr ⟨goes, ih⟩

/-- What the API shows of a key. -/
def Answers (host : LaHost) (s : BdbStore) (key : CString) : Option Version → Prop
  | none => ∀ calls : BdbCalls, calls.dbGet = none →
    (laDbGet (bdbDb host calls) s key none).result = .notFound
  | some v => Delivered host s key v.rev v.doc v.ids

theorem ShowsVersion.answers {key : CString} {v : Option Version}
    (shows : ShowsVersion host s key v) : Answers host s key v := by
  cases v with
  | none => exact fun calls reads => laDbGet_absent host reads shows
  | some v => exact shows.1.delivered shows.2.1

end Rounds

end PullFollows
