import Lounge.Pull.PullTurns
import Lounge.Pull.PullWrites
import Lounge.Storage.RevsOverlap

/-!
# What a pull run overwrites

With the default resolver a run writes a version for one of two reasons: the local
revision was found in the history of the remote version, or `la_db_get` found no
document. It finds none where the record is a deletion, and then the comparison that
protects local revisions is not made.
-/

namespace PullSafety
open ObjectStore CodecValue CouchRevgen RevScan LoungeApi ApiWrites BdbDriver BdbRecord BdbPut
  BdbApi RevsOverlap Process PullModel PullTurns PullWrites

abbrev PullEvent := Runs.Event BdbStore PullCall Bool

/-- The call stores a record under `key`: it returns OK and its commit goes through. -/
def Overwrites (host : LaHost) (e : PullEvent) (key : CString) : Prop :=
  match e.input with
  | .replace calls c k rev doc ids _ =>
    k = key ∧ calls.txnCommit = true ∧
      ∃ ret, laDbReplace (bdbDb host calls) c e.before (some k) (some rev) (some doc)
        (some ids.tail) (revcount ids.length) = some ret ∧ ret.result = .ok
  | .put calls c k rev doc =>
    k = key ∧ calls.txnCommit = true ∧
      ∃ ret, laDbPut (bdbDb host calls) c e.before (some k) (some rev) doc = some ret ∧
        ret.result = .ok
  | _ => False

/-- A record is only overwritten by a remote version whose ids have its revision. -/
def KeepsLocal (host : LaHost) (e : PullEvent) : Prop :=
  ∀ key h, StoredHeader e.before key h → Overwrites host e key →
    ∃ calls c rev doc ids why, e.input = .replace calls c key rev doc ids why ∧ h.rev ∈ ids

/-- A turn that takes a record for none: `la_db_get` does not find it, and the version that is
fetched then does not have its revision and can be written. -/
structure Discards (host : LaHost) (json : JsonLib) (urlbase : CString) (l : LoopState)
    (i : FeedEntry) (key revText : CString) (h : LaStorageObjectHeader) (object : LaCodecValue)
    (ids : List LaStorageRev) : Prop where
  announced : changeKeyRev i.change = some (key, revText)
  stored : StoredHeader l.store key h
  notFound : (laDbGet (bdbDb host i.env.getCalls) l.store key none).result = .notFound
  fetched : fetchedVersion i.env key json urlbase revText l.buffer = some (object, ids)
  unknown : h.rev ∉ ids
  replaces : Replaces host i.env.writeCalls i.env.writeApi object ids

/-- Only what `la_db_get` hides is taken for none. -/
theorem Discards.hidden {host : LaHost} {json : JsonLib} {urlbase : CString} {l : LoopState}
    {i : FeedEntry} {key revText : CString} {h : LaStorageObjectHeader} {object : LaCodecValue}
    {ids : List LaStorageRev} (discards : Discards host json urlbase l i key revText h object ids) :
    Hidden host l.store key := by
  obtain ⟨tail, found⟩ := discards.stored
  exact laDbGet_notFound found discards.notFound

section Events
variable {host : LaHost} {e : PullEvent} {key : CString}

/-- What changes the bytes of a record overwrites it. -/
theorem overwrites_of_changed {resolver : Resolver} {α : Type} {p : PullProc α} {s : BdbStore}
    (he : e ∈ trace (servePull host resolver) p s)
    (changed : e.after.db.lookup key ≠ e.before.db.lookup key) : Overwrites host e key := by
  obtain ⟨before, input, output, after⟩ := e
  rcases served_of_mem_trace he with ⟨-, same⟩ | ⟨r, served⟩
  · exact absurd (congrArg (fun s => s.db.lookup key) same) changed
  cases input with
  | replace calls c k rev doc ids why =>
    obtain ⟨ret, returned, reply⟩ := Option.map_eq_some_iff.mp served
    obtain rfl := (Prod.mk.inj reply).2
    have here : k = key := by
      by_contra other
      exact changed (laDbReplace_frame returned (Ne.symm other))
    rcases laDbReplace_bdb returned with ⟨same, -⟩ | ⟨data, o, through, -, -, committed⟩
    · exact absurd (congrArg (fun s => s.db.lookup key) same) changed
    · exact ⟨here, through.2.2, ret, returned, by rw [committed]⟩
  | put calls c k rev doc =>
    obtain ⟨ret, returned, reply⟩ := Option.map_eq_some_iff.mp served
    obtain rfl := (Prod.mk.inj reply).2
    have here : k = key := by
      by_contra other
      exact changed (doLaDbPut_frame returned (Ne.symm other))
    rcases doLaDbPut_bdb returned with ⟨same, -⟩ | ⟨d, data, o, p, -, -, -, committed, commit⟩
    · exact absurd (congrArg (fun s => s.db.lookup key) same) changed
    · exact ⟨here, commit, ret, returned, by rw [committed]⟩
  | get => exact absurd (by cases served; rfl) changed
  | getAllrevs => exact absurd (by cases served; rfl) changed
  | resolve => exact absurd (by cases served; rfl) changed

end Events

section Turn
variable {host : LaHost} {s : BdbStore}

/-- A replace keeps what it may overwrite if its version knows the revision. -/
theorem replace_keeps {calls : BdbCalls} {c : ApiCalls} {key : CString} {rev : LaRev}
    {doc : LaCodecValue} {ids : List LaStorageRev} {why : WriteReason} {resolver : Resolver}
    {α : Type} (a : α)
    (known : ∀ h, StoredHeader s key h → Replaces host calls c doc ids → h.rev ∈ ids) :
    AllEvents (servePull host resolver) (KeepsLocal host)
      (.call (.replace calls c key rev doc ids why) fun _ => .done a) s := by
  have keeps : ∀ b s', KeepsLocal host ⟨s, .replace calls c key rev doc ids why, b, s'⟩ := by
    rintro b s' _ h stored ⟨rfl, commit, ret, returned, ok⟩
    exact ⟨calls, c, rev, doc, ids, why, rfl,
      known h stored (replaces_of_ok returned ok commit)⟩
  exact allEvents_call (fun _ => keeps _ _) fun _ _ _ => ⟨keeps _ _, allEvents_done _ _⟩

theorem resolveConflict_keeps (env : ChangeEnv) (key : CString) (rev thatrev : LaRev)
    (object : LaCodecValue) (ids : List LaStorageRev) :
    AllEvents (servePull host resolveMine) (KeepsLocal host)
      (resolveConflict env key rev thatrev object ids) s := by
  refine allEvents_call (fun h => by cases h) ?_
  rintro mine s' ⟨⟩
  refine ⟨fun _ _ _ written => written.elim, ?_⟩
  split
  · refine allEvents_call (fun h => by cases h) ?_
    rintro resolution s' ⟨⟩
    exact ⟨fun _ _ _ written => written.elim, allEvents_done _ _⟩
  · split
    · exact allEvents_done _ _
    · exact allEvents_trap _

theorem compareRevs_keeps (env : ChangeEnv) (key : CString) {rev : LaRev} (thatrev : LaRev)
    (object : LaCodecValue) (ids : List LaStorageRev)
    (current : ∀ h, StoredHeader s key h → h.rev = rev.rev) :
    AllEvents (servePull host resolveMine) (KeepsLocal host)
      (compareRevs env key rev thatrev object ids) s := by
  refine allEvents_call (fun h => by cases h) ?_
  rintro all s' ⟨⟩
  refine ⟨fun _ _ _ written => written.elim, ?_⟩
  split
  · exact allEvents_done _ _
  · rename_i mine built
    obtain ⟨rest, rfl⟩ := localRevs_head built
    by_cases behind : laStorageRevsOverlap (rev.rev :: rest) ids = true
    · simp only [if_pos behind]
      refine replace_keeps _ fun h stored _ => ?_
      rw [current h stored]
      exact List.dropLast_subset ids (head_mem_of_overlap behind)
    · simp only [if_neg behind]
      split
      · exact resolveConflict_keeps env key rev thatrev object ids
      · exact allEvents_done _ _

/-- `mine` is what `la_db_get` said of the key on this store. -/
theorem fetchVersion_keeps (env : ChangeEnv) (key : CString) (json : JsonLib)
    (urlbase revText : CString) (thatrev : LaRev) (mine : Option LaRev) (buffer : List UInt8)
    (absent : mine = none → ∀ h object ids, StoredHeader s key h →
      fetchedVersion env key json urlbase revText buffer = some (object, ids) →
        Replaces host env.writeCalls env.writeApi object ids → h.rev ∈ ids)
    (current : ∀ rev, mine = some rev → ∀ h, StoredHeader s key h → h.rev = rev.rev) :
    AllEvents (servePull host resolveMine) (KeepsLocal host)
      (fetchVersion env key json urlbase revText thatrev mine buffer) s := by
  cases fetched : fetchedVersion env key json urlbase revText buffer with
  | none =>
    rcases fetchVersion_none fetched thatrev mine with trapped | ⟨why, rest, done, -⟩
    · rw [trapped]
      exact allEvents_trap _
    · rw [done]
      exact allEvents_done _ _
  | some version =>
    rw [fetchVersion_some fetched]
    apply allEvents_map
    cases mine with
    | none => exact replace_keeps _ fun h stored => absent rfl h _ _ stored fetched
    | some rev => exact compareRevs_keeps env key thatrev _ _ (current rev rfl)

/-- A turn that discards nothing keeps every local revision. -/
theorem handleChange_keeps (json : JsonLib) (urlbase : CString) (l : LoopState) (i : FeedEntry)
    (safe : ∀ key revText h object ids,
      ¬Discards host json urlbase l i key revText h object ids) :
    AllEvents (servePull host resolveMine) (KeepsLocal host)
      (handleChange json urlbase i.env i.change l.buffer) l.store := by
  simp only [handleChange]
  split
  · exact allEvents_done _ _
  · rename_i key revText announced
    refine allEvents_call (fun h => by cases h) ?_
    rintro ret s' ⟨⟩
    refine ⟨fun _ _ _ written => written.elim, ?_⟩
    split
    · exact allEvents_done _ _
    · rename_i notFound
      refine fetchVersion_keeps i.env key json urlbase revText _ none l.buffer ?_ (by simp)
      intro _ h object ids stored fetched replaces
      by_contra unknown
      exact safe key revText h object ids
        ⟨announced, stored, notFound, fetched, unknown, replaces⟩
    · rename_i rev _ current
      split
      · exact allEvents_done _ _
      · refine fetchVersion_keeps i.env key json urlbase revText _ (some rev) l.buffer (by simp) ?_
        rintro _ ⟨⟩ h stored
        rw [laDbGet_current stored current]
    · exact allEvents_trap _

/-- And one that discards a revision overwrites it. -/
theorem Discards.overwritten {json : JsonLib} {urlbase : CString} {l : LoopState} {i : FeedEntry}
    {key revText : CString} {h : LaStorageObjectHeader} {object : LaCodecValue}
    {ids : List LaStorageRev} (discards : Discards host json urlbase l i key revText h object ids)
    (resolver : Resolver) :
    ¬AllEvents (servePull host resolver) (KeepsLocal host)
      (handleChange json urlbase i.env i.change l.buffer) l.store := by
  obtain ⟨announced, stored, notFound, fetched, unknown, replaces⟩ := discards
  have missing : missingHere (laDbGet (bdbDb host i.env.getCalls) l.store key none)
      (laRevScan revText i.env.uninitRev).2 = some none := by
    simp only [missingHere, notFound]
  have calls := (handleChange_missing resolver json urlbase announced missing l.buffer).2
  rw [fetchVersion_some fetched, trace_map] at calls
  obtain ⟨ret, returned, ok⟩ :=
    replaces.returns l.store key (laRevScan revText i.env.uninitRev).2
  intro keeps
  obtain ⟨_, _, _, _, _, _, replaced, mem⟩ := keeps
    ⟨l.store, .replace i.env.writeCalls i.env.writeApi key (laRevScan revText i.env.uninitRev).2
      object ids .added, true, ret.store⟩
    (by rw [calls]
        simp [takeVersion, trace, servePull, returned])
    key h stored ⟨rfl, replaces.through.2.2, ret, returned, ok⟩
  cases replaced
  exact unknown mem

/-- A run with the default resolver discards no local revision exactly if none of its turns takes
a record for none whose revision the version that it can write does not have. -/
theorem pull_keeps_local_iff (host : LaHost) (json : JsonLib) (env : RunEnv) (p : Puller)
    (s : BdbStore) :
    AllEvents (servePull host resolveMine) (KeepsLocal host) (laPullRun json env p) s ↔
      ∀ t ∈ turns host resolveMine json env p s, ∀ l ∈ t.before,
        ∀ key revText h object ids,
          ¬Discards host json p.urlbase l t.input key revText h object ids := by
  rw [AllEvents, trace_laPullRun]
  constructor
  · intro keeps t turn l before key revText h object ids discards
    refine discards.overwritten resolveMine fun e he => keeps e (List.mem_flatMap.mpr ⟨t, turn, ?_⟩)
    rw [turnCalls, before]
    exact he
  · intro safe e he
    obtain ⟨t, turn, he⟩ := List.mem_flatMap.mp he
    rw [turnCalls] at he
    split at he
    · cases he
    · rename_i l before
      exact handleChange_keeps json p.urlbase l t.input (safe t turn l before) e he

end Turn

section Runs
/-- The revision of the deletion below, the MD5 of its image. -/
private def deletionRev : LaStorageRev :=
  ⟨[222, 113, 91, 241, 38, 239, 201, 61, 34, 93, 158, 63, 142, 142, 184, 26], by decide⟩

private def deletionHost : LaHost := ⟨emptyObjectCodec, ⟨fun _ => deletionRev, fun _ => []⟩, none⟩

private def docKey : CString := CString.ofBytes [97]

/-- A document was deleted here, -/
private def deletionStore : BdbStore :=
  ((laDbDelete (bdbDb deletionHost {}) {} true bdbEmpty (some docKey) none).map Prod.snd).getD
    bdbEmpty

private def unrelatedRev : LaRev :=
  ⟨1, overwrite zeroRev [150, 122, 0, 223, 245, 224, 42, 221, 65, 129, 145, 56, 171, 179, 40, 77]⟩

/-- and the server has an unrelated one under the same key. -/
private def unrelatedFeed : LaCodecValue :=
  changesFeed (.array [.integer 1]) [(docKey, unrelatedRev)]

private def unrelatedVersion : LaCodecValue := versionOf [] [unrelatedRev.rev]

private def deletionRun : PullProc PullReturn :=
  laPullRun (textsOf [unrelatedFeed, unrelatedVersion])
    { feed := fun _ => (⟨jsonText unrelatedFeed, true⟩, 200)
      changes := fun _ => { remote := fun _ => ⟨jsonText unrelatedVersion, true⟩ } }
    ⟨CString.ofBytes [117], CString.ofBytes [117], 63, none, false⟩

private def idsOf : PullCall → List LaStorageRev
  | .replace _ _ _ _ _ ids _ => ids
  | _ => []

/-- The deletion is overwritten, although the remote version does not have its revision. -/
theorem deletion_not_kept :
    ¬ AllEvents (servePull deletionHost resolveMine) (KeepsLocal deletionHost) deletionRun
      deletionStore := by
  intro keeps
  let header : LaStorageObjectHeader := ⟨1, 1, true, 0, deletionRev⟩
  have discards : ∃ e ∈ trace (servePull deletionHost resolveMine) deletionRun deletionStore,
      e.before.db.lookup docKey = some (header.bytes ++ [123, 125]) ∧
      e.after.db.lookup docKey ≠ e.before.db.lookup docKey ∧ deletionRev ∉ idsOf e.input := by
    decide +kernel
  obtain ⟨e, he, stored, changed, unknown⟩ := discards
  obtain ⟨calls, c, rev, doc, ids, why, replaced, mem⟩ :=
    keeps e he docKey header ⟨[123, 125], stored⟩ (overwrites_of_changed he changed)
  rw [replaced] at unknown
  exact unknown mem

end Runs

end PullSafety
