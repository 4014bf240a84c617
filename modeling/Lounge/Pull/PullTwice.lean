import Lounge.Pull.PullCalls
import Lounge.Pull.PullCheckpoint
import Lounge.Pull.PullWrites

/-!
# Pulling again

What a second run finds was left by the first. A version that was written is current then,
if its record is there and shown; after a merge it depends on the record that the put made.
Where the first run wrote nothing, neither does the second.
-/

namespace PullTwice
open ObjectStore CodecValue CouchRevgen RevScan LoungeApi BdbDriver BdbRecord BdbPut BdbApi
  Process IdleRuns PullModel PullTurns PullCalls PullWrites
open PullDecision (isWrite)
open PullCheckpoint (feedObject)

/-- A feed names a document once. -/
def NamesOnce (changes : List LaCodecValue) : Prop :=
  (changes.filterMap fun change => (changeKeyRev change).map Prod.fst).Nodup

theorem NamesOnce.of_cons {change : LaCodecValue} {rest : List LaCodecValue}
    (once : NamesOnce (change :: rest)) : NamesOnce rest := by
  simp only [NamesOnce, List.filterMap_cons] at once
  split at once
  · exact once
  · exact (List.nodup_cons.mp once).2

/-- The run returned 0, and no transfer of a version failed. -/
structure Succeeded (ret : PullReturn) : Prop where
  status : ret.status = 0
  transfers : ∀ o ∈ ret.handled, o.2 ≠ .skipped .transport

/-- The replace stores its document: it is an object that can be encoded, its record fits, and
no call fails. -/
structure Stores (host : LaHost) (calls : BdbCalls) (c : ApiCalls) (doc : LaCodecValue)
    (ids : List LaStorageRev) : Prop where
  object : doc.laCodecIsObject = true
  buffer : c.buffer = true
  copied : c.copied = true
  through : WritesThrough calls
  encodes : (host.encode (replaceDoc doc)).isSome = true
  small : ∀ data ∈ host.encode (replaceDoc doc),
    headerSize + 16 * ids.length + data.length < 2 ^ 32

section LeftAlone
variable (host : LaHost) (resolver : Resolver) (env : ChangeEnv) (key : CString)

/-- The loop has `rev` for the local revision, and `mine` for the list it compares. -/
structure FoundHere (s : BdbStore) (rev : LaRev) (mine : List LaStorageRev) : Prop where
  found : (laDbGet (bdbDb host env.getCalls) s key none).result = .ok
  current : (laDbGet (bdbDb host env.getCalls) s key none).currentRev = some rev
  built : localRevs env.localAllocated rev.rev
    (laDbGetAllrevs (bdbDb host env.allrevsCalls) s key) = some mine

/-- The local version is current, ahead, or the one that the resolver takes of the two; or it
cannot be read. -/
inductive LeftAlone (thatrev : LaRev) (object : LaCodecValue) (ids : List LaStorageRev)
    (s : BdbStore) : Prop
  | unreadable (failed : (laDbGet (bdbDb host env.getCalls) s key none).result = .error)
  | current (rev : LaRev) (found : (laDbGet (bdbDb host env.getCalls) s key none).result = .ok)
      (current : (laDbGet (bdbDb host env.getCalls) s key none).currentRev = some rev)
      (same : rev.rev = thatrev.rev)
  | ahead (rev : LaRev) (mine : List LaStorageRev) (here : FoundHere host env key s rev mine)
      (notBehind : laStorageRevsOverlap mine ids = false)
      (ahead : laStorageRevsOverlap ids mine = true)
  | takenMine (rev : LaRev) (mine : List LaStorageRev) (value : LaCodecValue)
      (here : FoundHere host env key s rev mine)
      (notBehind : laStorageRevsOverlap mine ids = false)
      (read : (laDbGet (bdbDb host env.conflictCalls) s key none).result = .ok)
      (shown : (laDbGet (bdbDb host env.conflictCalls) s key none).value = some value)
      (resolved : resolver key value object = .takeMine)

end LeftAlone

section Settles
variable (host : LaHost) (resolver : Resolver) (json : JsonLib) (urlbase : CString)

end Settles

section Change
variable {host : LaHost} {resolver : Resolver} {json : JsonLib} {urlbase : CString}
  {env : ChangeEnv} {change : LaCodecValue} {key revText : CString} {s s' : BdbStore}

theorem idle_current (named : changeKeyRev change = some (key, revText)) {rev : LaRev}
    (found : (laDbGet (bdbDb host env.getCalls) s key none).result = .ok)
    (current : (laDbGet (bdbDb host env.getCalls) s key none).currentRev = some rev)
    (same : rev.rev = (laRevScan revText env.uninitRev).2.rev) :
    Idle (servePull host resolver) isWrite (handleChange json urlbase env change []) s
      (.current, []) := by
  rw [handleChange, named]
  apply idle_read rfl rfl
  simp only [found, current, if_pos same]
  exact idle_done _ _

/-- A local version that the comparison of revisions passes over. -/
theorem FoundHere.idle (named : changeKeyRev change = some (key, revText)) {object : LaCodecValue}
    {ids mine : List LaStorageRev} {rev : LaRev}
    (fetched : fetchedVersion env key json urlbase revText [] = some (object, ids))
    (here : FoundHere host env key s rev mine) {o : Outcome}
    (passed : Idle (servePull host resolver) isWrite
      (compareRevs env key rev (laRevScan revText env.uninitRev).2 object ids) s o) :
    ∃ a, Idle (servePull host resolver) isWrite (handleChange json urlbase env change []) s a := by
  by_cases same : rev.rev = (laRevScan revText env.uninitRev).2.rev
  · exact ⟨_, idle_current named here.found here.current same⟩
  · refine ⟨(o, []), ?_⟩
    rw [handleChange, named]
    apply idle_read rfl rfl
    simp only [here.found, here.current, if_neg same, fetchVersion_some fetched]
    exact passed.map _

theorem FoundHere.ahead {thatrev : LaRev} {object : LaCodecValue} {ids mine : List LaStorageRev}
    {rev : LaRev} (here : FoundHere host env key s rev mine)
    (notBehind : laStorageRevsOverlap mine ids = false)
    (ahead : laStorageRevsOverlap ids mine = true) :
    Idle (servePull host resolver) isWrite (compareRevs env key rev thatrev object ids) s
      .ahead := by
  apply idle_read rfl rfl
  simp only [here.built, notBehind, ahead]
  exact idle_done _ _

theorem FoundHere.forked {thatrev : LaRev} {object : LaCodecValue} {ids mine : List LaStorageRev}
    {rev : LaRev} (here : FoundHere host env key s rev mine)
    (notBehind : laStorageRevsOverlap mine ids = false)
    (notAhead : laStorageRevsOverlap ids mine = false) {o : Outcome}
    (resolved : Idle (servePull host resolver) isWrite
      (resolveConflict env key rev thatrev object ids) s o) :
    Idle (servePull host resolver) isWrite (compareRevs env key rev thatrev object ids) s o := by
  apply idle_read rfl rfl
  simp only [here.built, notBehind, notAhead]
  exact resolved

theorem resolveConflict_takesMine {thatrev : LaRev} {object value : LaCodecValue}
    {ids : List LaStorageRev} {rev : LaRev}
    (read : (laDbGet (bdbDb host env.conflictCalls) s key none).result = .ok)
    (shown : (laDbGet (bdbDb host env.conflictCalls) s key none).value = some value)
    (resolved : resolver key value object = .takeMine) :
    Idle (servePull host resolver) isWrite (resolveConflict env key rev thatrev object ids) s
      (.resolved .takeMine) := by
  apply idle_read rfl rfl
  simp only [read, shown]
  apply idle_read rfl rfl
  simp only [resolved]
  exact idle_done _ _

/-- What is left alone is passed over. -/
theorem LeftAlone.idle (named : changeKeyRev change = some (key, revText)) {object : LaCodecValue}
    {ids : List LaStorageRev}
    (fetched : fetchedVersion env key json urlbase revText [] = some (object, ids))
    (alone : LeftAlone host resolver env key (laRevScan revText env.uninitRev).2 object ids s) :
    ∃ a, Idle (servePull host resolver) isWrite (handleChange json urlbase env change []) s a := by
  cases alone with
  | unreadable failed =>
    refine ⟨(.skipped .localGet, []), ?_⟩
    rw [handleChange, named]
    apply idle_read rfl rfl
    simp only [failed]
    exact idle_done _ _
  | current rev found current same => exact ⟨_, idle_current named found current same⟩
  | ahead rev mine here notBehind ahead =>
    exact here.idle named fetched (here.ahead notBehind ahead)
  | takenMine rev mine value here notBehind read shown resolved =>
    cases ahead : laStorageRevsOverlap ids mine with
    | true => exact here.idle named fetched (here.ahead notBehind ahead)
    | false =>
      apply here.idle named fetched
      exact here.forked notBehind ahead (resolveConflict_takesMine read shown resolved)

end Change

section Run
variable {host : LaHost} {resolver : Resolver} {json : JsonLib}

end Run

section Runs
end Runs

end PullTwice
