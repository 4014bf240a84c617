import Lounge.Pull.PullModel

/-!
# The turns of the loop

The loop of `la_pull_run` as a run of turns. A turn takes one change, and leaves to the next
one the store and what `puller->buffer` still holds.
-/

namespace PullTurns
open ObjectStore CodecValue CouchRevgen RevScan LoungeApi BdbDriver Process PullModel Runs

/-- What a turn finds. -/
structure LoopState where
  buffer : List UInt8
  store : BdbStore

/-- A change of the feed, with its environment. -/
structure FeedEntry where
  env : ChangeEnv
  change : LaCodecValue

abbrev Turn := Event (Option LoopState) FeedEntry (Option Outcome)

section Turns
variable (host : LaHost) (resolver : Resolver) (json : JsonLib) (urlbase : CString)

/-- One turn. A crash leaves no state to the next. -/
def turnStep : Option LoopState → FeedEntry → Option Outcome × Option LoopState
  | none, _ => (none, none)
  | some l, i =>
    match run (servePull host resolver) (handleChange json urlbase i.env i.change l.buffer)
        l.store with
    | none => (none, none)
    | some (done, s) => (some done.1, some ⟨done.2, s⟩)

/-- The calls of a turn. -/
def turnCalls (e : Turn) : List (Event BdbStore PullCall Bool) :=
  match e.before with
  | none => []
  | some l =>
    trace (servePull host resolver) (handleChange json urlbase e.input.env e.input.change l.buffer)
      l.store

end Turns

/-- The changes from number `i` on. -/
def entries (envs : Nat → ChangeEnv) : Nat → List LaCodecValue → List FeedEntry
  | _, [] => []
  | i, change :: rest => ⟨envs i, change⟩ :: entries envs (i + 1) rest

/-- The changes that a run comes to, none if it returns before its loop. -/
def loopEntries (json : JsonLib) (env : RunEnv) (p : Puller) : List FeedEntry :=
  match initChangesFeed env.init p with
  | some (true, q) =>
    let (transfer, status) := env.feed q.url
    if !transfer.ok || status != 200 then []
    else
      match json.load env.jsonAllocated transfer.delivered with
      | none => []
      | some feed =>
        match feed.laCodecObjectGet resultsName with
        | some (.array results) => entries env.changes 0 results
        | _ => []
  | _ => []

/-- The turns of a run of the puller. Each feed has a buffer of its own. -/
def turns (host : LaHost) (resolver : Resolver) (json : JsonLib) (env : RunEnv) (p : Puller)
    (s : BdbStore) : List Turn :=
  events (turnStep host resolver json p.urlbase) (some ⟨[], s⟩) (loopEntries json env p)

section Loop
variable {host : LaHost} {resolver : Resolver} {json : JsonLib} {urlbase : CString}

theorem events_crashed (is : List FeedEntry) :
    ∀ e ∈ events (turnStep host resolver json urlbase) none is, e.before = none := by
  induction is with
  | nil => exact fun e he => by cases he
  | cons i rest ih =>
    intro e he
    rcases List.mem_cons.mp he with rfl | he
    · rfl
    · exact ih e he

theorem final_crashed (is : List FeedEntry) :
    final (turnStep host resolver json urlbase) none is = none := by
  induction is with
  | nil => rfl
  | cons i rest ih => exact ih

/-- The loop runs turn by turn. -/
theorem run_handleChanges_turns (host : LaHost) (resolver : Resolver) (json : JsonLib)
    (urlbase : CString) (envs : Nat → ChangeEnv) (i : Nat) (changes : List LaCodecValue)
    (l : LoopState) :
    (run (servePull host resolver) (handleChanges json urlbase envs i changes l.buffer)
        l.store).map (fun a => (a.1.map fun o => some o.2, a.2)) =
      (final (turnStep host resolver json urlbase) (some l) (entries envs i changes)).map fun l' =>
        (outputs (turnStep host resolver json urlbase) (some l) (entries envs i changes),
          l'.store) := by
  induction changes generalizing i l with
  | nil => rfl
  | cons change rest ih =>
    rw [handleChanges, run_bind, entries, final]
    simp only [outputs, events, List.map_cons, event, turnStep]
    cases run (servePull host resolver) (handleChange json urlbase (envs i) change l.buffer)
        l.store with
    | none => simp [final_crashed]
    | some end_ =>
      have later := ih (i + 1) ⟨end_.1.2, end_.2⟩
      simp only [Option.bind_some, run_map, Option.map_map]
      simp only [outputs] at later
      cases hrest : run (servePull host resolver)
          (handleChanges json urlbase envs (i + 1) rest end_.1.2) end_.2 with
      | none =>
        rw [hrest, Option.map_none] at later
        rw [Option.map_none, Option.map_eq_none_iff.mp later.symm, Option.map_none]
      | some loop =>
        rw [hrest, Option.map_some] at later
        obtain ⟨l', last, same⟩ := Option.map_eq_some_iff.mp later.symm
        obtain ⟨outcomes, store⟩ := Prod.mk.inj same
        simp [last, outcomes, store]

theorem trace_handleChanges_turns (envs : Nat → ChangeEnv) (i : Nat)
    (changes : List LaCodecValue) (l : LoopState) :
    trace (servePull host resolver) (handleChanges json urlbase envs i changes l.buffer) l.store =
      (events (turnStep host resolver json urlbase) (some l) (entries envs i changes)).flatMap
        (turnCalls host resolver json urlbase) := by
  induction changes generalizing i l with
  | nil => rfl
  | cons change rest ih =>
    rw [handleChanges, trace_bind, entries, events, List.flatMap_cons]
    simp only [event, turnCalls, turnStep]
    congr 1
    cases run (servePull host resolver) (handleChange json urlbase (envs i) change l.buffer)
        l.store with
    | none =>
      symm
      rw [Option.elim_none, List.flatMap_eq_nil_iff]
      intro e he
      rw [turnCalls, events_crashed _ e he]
    | some end_ =>
      rw [Option.elim_some, trace_map]
      exact ih (i + 1) ⟨end_.1.2, end_.2⟩

/-- A run crashes or returns before its loop, or goes through the loop with the changes and the
`last_seq` of its feed. -/
theorem laPullRun_cases (json : JsonLib) (env : RunEnv) (p : Puller) :
    loopEntries json env p = [] ∧
      (laPullRun json env p = .trap ∨ ∃ q, laPullRun json env p = .done ⟨-1, q, []⟩) ∨
    ∃ q feed changes, initChangesFeed env.init p = some (true, q) ∧
      ((env.feed q.url).1.ok && (env.feed q.url).2 == 200) = true ∧
      json.load env.jsonAllocated (env.feed q.url).1.delivered = some feed ∧
      feed.laCodecObjectGet resultsName = some (.array changes) ∧
      loopEntries json env p = entries env.changes 0 changes ∧
      laPullRun json env p = (handleChanges json p.urlbase env.changes 0 changes []).bind
        (finishRun env
          { q with lastSeq := (feed.laCodecObjectGet lastSeqName).bind json.dumps }) := by
  simp only [laPullRun, loopEntries]
  cases init : initChangesFeed env.init p with
  | none => exact Or.inl ⟨rfl, Or.inl rfl⟩
  | some reply =>
    obtain ⟨_ | _, q⟩ := reply
    · exact Or.inl ⟨rfl, Or.inr ⟨_, rfl⟩⟩
    obtain ⟨base, -⟩ := initChangesFeed_keeps init
    by_cases refused : (!(env.feed q.url).1.ok || (env.feed q.url).2 != 200) = true
    · simp only [if_pos refused]
      exact Or.inl ⟨trivial, Or.inr ⟨_, rfl⟩⟩
    have arrived : ((env.feed q.url).1.ok && (env.feed q.url).2 == 200) = true := by
      simpa [bne] using refused
    simp only [if_neg refused]
    cases loaded : json.load env.jsonAllocated (env.feed q.url).1.delivered with
    | none => exact Or.inl ⟨rfl, Or.inr ⟨_, rfl⟩⟩
    | some feed =>
      cases feed with
      | object members =>
        simp only [LaCodecValue.laCodecIsObject, Bool.not_true, Bool.false_eq_true, if_false]
        cases listed : (LaCodecValue.object members).laCodecObjectGet resultsName with
        | none => exact Or.inl ⟨rfl, Or.inr ⟨_, rfl⟩⟩
        | some results =>
          cases results with
          | array changes =>
            exact Or.inr ⟨q, _, changes, rfl, arrived, loaded, listed, rfl, by rw [← base]⟩
          | _ => exact Or.inl ⟨rfl, Or.inr ⟨_, rfl⟩⟩
      | _ => exact Or.inl ⟨rfl, Or.inr ⟨_, rfl⟩⟩

/-- The last statements make no calls, whatever became of the changes. -/
theorem finishRun_cases (env : RunEnv) (p : Puller) :
    (∀ handled, finishRun env p handled = .trap) ∨
      ∃ q, (∀ handled, finishRun env p handled = .done ⟨0, q, handled⟩) ∧
        (p.continuous = false ∧ q = p ∨
          p.continuous = true ∧ ∃ begun, initChangesFeed env.again p = some (begun, q)) := by
  simp only [finishRun]
  cases p.continuous with
  | false => exact Or.inr ⟨p, fun _ => rfl, Or.inl ⟨rfl, rfl⟩⟩
  | true =>
    cases initChangesFeed env.again p with
    | none => exact Or.inl fun _ => rfl
    | some reply => exact Or.inr ⟨reply.2, fun _ => rfl, Or.inr ⟨rfl, reply.1, rfl⟩⟩

theorem run_finishRun {env : RunEnv} {p : Puller} {handled : List (LaCodecValue × Outcome)}
    {s s' : BdbStore} {ret : PullReturn}
    (ran : run (servePull host resolver) (finishRun env p handled) s = some (ret, s')) :
    ret.handled = handled ∧ ret.puller.lastSeq = p.lastSeq ∧ s' = s := by
  rcases finishRun_cases env p with trap | ⟨q, done, kept⟩
  · rw [trap] at ran
    cases ran
  · rw [done] at ran
    cases ran
    refine ⟨rfl, ?_, rfl⟩
    rcases kept with ⟨-, rfl⟩ | ⟨-, begun, init⟩
    · rfl
    · exact (initChangesFeed_keeps init).2

/-- All calls of a run are those of its turns. -/
theorem trace_laPullRun (env : RunEnv) (p : Puller) (s : BdbStore) :
    trace (servePull host resolver) (laPullRun json env p) s =
      (turns host resolver json env p s).flatMap (turnCalls host resolver json p.urlbase) := by
  rw [turns]
  rcases laPullRun_cases json env p with ⟨empty, early⟩ |
    ⟨q, feed, changes, -, -, -, -, entered, loop⟩
  · rw [empty]
    rcases early with trap | ⟨q, done⟩
    · rw [trap]
      rfl
    · rw [done]
      rfl
  · have silent : ∀ q a s', trace (servePull host resolver) (finishRun env q a) s' = [] := by
      intro q a s'
      rcases finishRun_cases env q with trap | ⟨q', done, -⟩
      · rw [trap]
        rfl
      · rw [done]
        rfl
    rw [entered, loop, trace_bind, trace_handleChanges_turns env.changes 0 changes ⟨[], s⟩]
    cases
        run (servePull host resolver) (handleChanges json p.urlbase env.changes 0 changes []) s <;>
      simp [silent]

/-- What `la_pull_run` returns and leaves is what its turns made of it. -/
theorem run_laPullRun_turns {env : RunEnv} {p : Puller} {s s' : BdbStore} {ret : PullReturn}
    (h : run (servePull host resolver) (laPullRun json env p) s = some (ret, s')) :
    outputs (turnStep host resolver json p.urlbase) (some ⟨[], s⟩) (loopEntries json env p) =
      (ret.handled.map fun o => some o.2) ∧
    (final (turnStep host resolver json p.urlbase) (some ⟨[], s⟩) (loopEntries json env p)).map
      LoopState.store = some s' := by
  rcases laPullRun_cases json env p with ⟨empty, early⟩ |
    ⟨q, feed, changes, -, -, -, -, entered, loop⟩
  · rw [empty]
    rcases early with trap | ⟨q, done⟩
    · rw [trap] at h
      cases h
    · rw [done] at h
      cases h
      exact ⟨rfl, rfl⟩
  · rw [loop, run_bind] at h
    obtain ⟨⟨handled, s''⟩, hloop, hfinish⟩ := Option.bind_eq_some_iff.mp h
    have ran := run_handleChanges_turns host resolver json p.urlbase env.changes 0 changes ⟨[], s⟩
    rw [hloop, Option.map_some] at ran
    obtain ⟨l, last, same⟩ := Option.map_eq_some_iff.mp ran.symm
    obtain ⟨outcomes, store⟩ := Prod.mk.inj same
    obtain ⟨rfl, -, rfl⟩ := run_finishRun hfinish
    rw [entered, outcomes, last, Option.map_some, store]
    exact ⟨rfl, rfl⟩

end Loop

section Fetches

/-- "Rev is missing, fetch it": the local revision that it was missed beside, if there is one. -/
def missingHere (ret : LaDbGetReturn) (thatrev : LaRev) : Option (Option LaRev) :=
  match ret.result, ret.currentRev with
  | .notFound, _ => some none
  | .ok, some rev => if rev.rev = thatrev.rev then none else some (some rev)
  | _, _ => none

/-- The transfer of a version, with what the loop knows then. -/
structure Fetch where
  key : CString
  revText : CString
  mine : Option LaRev
  transfer : Transfer

/-- The transfer that a turn comes to. -/
def fetchMade (host : LaHost) (urlbase : CString) (i : FeedEntry) (s : BdbStore) : Option Fetch :=
  match changeKeyRev i.change with
  | none => none
  | some (key, revText) =>
    match missingHere (laDbGet (bdbDb host i.env.getCalls) s key none)
        (laRevScan revText i.env.uninitRev).2 with
    | none => none
    | some mine =>
      if i.env.urlBuilt && i.env.setup then
        some ⟨key, revText, mine, i.env.remote (documentUrl urlbase key revText)⟩
      else none

/-- The version that the loop reads out of the bytes it has received. -/
def readVersion (json : JsonLib) (env : ChangeEnv) (bytes : List UInt8) :
    Option (LaCodecValue × List LaCodecValue) :=
  (json.load env.jsonAllocated bytes).bind parseRevisions

/-- The loop behind a successful transfer. -/
def parseVersion (json : JsonLib) (env : ChangeEnv) (f : Fetch) (bytes : List UInt8) :
    PullProc Outcome :=
  match readVersion json env bytes with
  | none => .done (.skipped .response)
  | some (object, ids) =>
    if !env.revsAllocated then .done (.skipped .allocation)
    else
      match scanIds env.revsJunk 0 ids with
      | none => .trap
      | some remoteRevs =>
        takeVersion env f.key f.mine (laRevScan f.revText env.uninitRev).2 object remoteRevs

/-- The loop behind a transfer, entered with `buffer`. -/
def afterTransfer (json : JsonLib) (env : ChangeEnv) (f : Fetch) (buffer : List UInt8) :
    PullProc (Outcome × List UInt8) :=
  if f.transfer.ok then
    (parseVersion json env f (buffer ++ f.transfer.delivered)).map fun outcome => (outcome, [])
  else .done (.skipped .transport, buffer ++ f.transfer.delivered)

variable {host : LaHost} {resolver : Resolver} {json : JsonLib} {urlbase : CString}

theorem fetchVersion_ready {env : ChangeEnv} (ready : (env.urlBuilt && env.setup) = true)
    (key revText : CString) (mine : Option LaRev) (buffer : List UInt8) :
    fetchVersion env key json urlbase revText (laRevScan revText env.uninitRev).2 mine buffer =
      afterTransfer json env ⟨key, revText, mine, env.remote (documentUrl urlbase key revText)⟩
        buffer := by
  obtain ⟨built, setup⟩ := Bool.and_eq_true_iff.mp ready
  simp only [fetchVersion, afterTransfer, parseVersion, readVersion, built, setup, Bool.not_true,
    Bool.false_eq_true, if_false]
  cases (env.remote (documentUrl urlbase key revText)).ok with
  | false => rfl
  | true =>
    simp only [Bool.not_true, Bool.false_eq_true, if_false, if_true]
    cases (json.load env.jsonAllocated
        (buffer ++ (env.remote (documentUrl urlbase key revText)).delivered)).bind
        parseRevisions with
    | none => rfl
    | some version =>
      obtain ⟨object, ids⟩ := version
      cases env.revsAllocated with
      | false => rfl
      | true =>
        simp only [Bool.not_true, Bool.false_eq_true, if_false]
        cases scanIds env.revsJunk 0 ids <;> rfl

/-- Where no transfer is made, the loop crashes or goes on with the buffer as it is. -/
theorem fetchVersion_unready (json : JsonLib) (urlbase : CString) {env : ChangeEnv}
    (unready : ¬(env.urlBuilt && env.setup) = true) (key revText : CString) (thatrev : LaRev)
    (mine : Option LaRev) :
    ∃ end_ : Option Outcome, ∀ buffer,
      fetchVersion env key json urlbase revText thatrev mine buffer =
        end_.elim .trap fun o => .done (o, buffer) := by
  cases built : env.urlBuilt with
  | false => exact ⟨none, fun buffer => by simp [fetchVersion, built]⟩
  | true =>
    have setup : env.setup = false := by simpa [built] using unready
    exact ⟨some (.skipped .transport), fun buffer => by simp [fetchVersion, built, setup]⟩

section Named
variable (resolver json urlbase) {i : FeedEntry} {s : BdbStore} {key revText : CString}

/-- The calls and the end of a turn, from the answer to its local get on. -/
theorem handleChange_missing (named : changeKeyRev i.change = some (key, revText))
    {mine : Option LaRev}
    (missing : missingHere (laDbGet (bdbDb host i.env.getCalls) s key none)
      (laRevScan revText i.env.uninitRev).2 = some mine) (buffer : List UInt8) :
    let rest := fetchVersion i.env key json urlbase revText (laRevScan revText i.env.uninitRev).2
      mine buffer
    run (servePull host resolver) (handleChange json urlbase i.env i.change buffer) s =
      run (servePull host resolver) rest s ∧
    trace (servePull host resolver) (handleChange json urlbase i.env i.change buffer) s =
      ⟨s, .get i.env.getCalls key, true, s⟩ :: trace (servePull host resolver) rest s := by
  rw [handleChange, named]
  simp only [run_get, trace_get]
  generalize laDbGet (bdbDb host i.env.getCalls) s key none = ret at missing ⊢
  obtain ⟨result, value, currentRev⟩ := ret
  cases result with
  | notFound =>
    obtain rfl := Option.some.inj missing
    exact ⟨rfl, rfl⟩
  | error => cases missing
  | ok =>
    cases currentRev with
    | none => cases missing
    | some rev =>
      simp only [missingHere] at missing
      split at missing
      · cases missing
      · rename_i differs
        obtain rfl := Option.some.inj missing
        simp only [if_neg differs]
        exact ⟨trivial, trivial⟩

/-- Where nothing is missing the turn ends after the get. -/
theorem handleChange_here (named : changeKeyRev i.change = some (key, revText))
    (here : missingHere (laDbGet (bdbDb host i.env.getCalls) s key none)
      (laRevScan revText i.env.uninitRev).2 = none) :
    ∃ end_ : Option Outcome, (∀ o ∈ end_, o = .skipped .localGet ∨ o = .current) ∧ ∀ buffer,
      run (servePull host resolver) (handleChange json urlbase i.env i.change buffer) s =
        end_.map (fun o => ((o, buffer), s)) ∧
      trace (servePull host resolver) (handleChange json urlbase i.env i.change buffer) s =
        [⟨s, .get i.env.getCalls key, true, s⟩] := by
  simp only [handleChange, named, run_get, trace_get]
  generalize laDbGet (bdbDb host i.env.getCalls) s key none = ret at here ⊢
  obtain ⟨result, value, currentRev⟩ := ret
  cases result with
  | notFound => cases here
  | error => exact ⟨some (.skipped .localGet), by simp, fun buffer => ⟨rfl, rfl⟩⟩
  | ok =>
    cases currentRev with
    | none => exact ⟨none, by simp, fun buffer => ⟨rfl, rfl⟩⟩
    | some rev =>
      simp only [missingHere] at here
      split at here
      · rename_i same
        simp only [if_pos same]
        exact ⟨some .current, by simp, fun buffer => ⟨rfl, rfl⟩⟩
      · cases here

end Named

/-- A turn with a transfer: the local get, and what the loop does behind the transfer. -/
theorem handleChange_fetched (resolver : Resolver) (json : JsonLib) {i : FeedEntry}
    {s : BdbStore} {f : Fetch} (made : fetchMade host urlbase i s = some f) (buffer : List UInt8) :
    run (servePull host resolver) (handleChange json urlbase i.env i.change buffer) s =
      run (servePull host resolver) (afterTransfer json i.env f buffer) s ∧
    trace (servePull host resolver) (handleChange json urlbase i.env i.change buffer) s =
      ⟨s, .get i.env.getCalls f.key, true, s⟩ ::
        trace (servePull host resolver) (afterTransfer json i.env f buffer) s := by
  simp only [fetchMade] at made
  split at made
  · cases made
  rename_i key revText named
  split at made
  · cases made
  rename_i mine missing
  split at made
  · rename_i ready
    obtain rfl := Option.some.inj made
    rw [← fetchVersion_ready ready]
    exact handleChange_missing resolver json urlbase named missing buffer
  · cases made

/-- A turn without one reads, and keeps the buffer. -/
theorem handleChange_unfetched (resolver : Resolver) (json : JsonLib) {i : FeedEntry}
    {s : BdbStore} (unmade : fetchMade host urlbase i s = none) :
    ∃ end_ : Option Outcome, ∀ buffer,
      run (servePull host resolver) (handleChange json urlbase i.env i.change buffer) s =
        end_.map (fun o => ((o, buffer), s)) ∧
      ∀ e ∈ trace (servePull host resolver) (handleChange json urlbase i.env i.change buffer) s,
        ∃ calls key, e.input = .get calls key := by
  simp only [fetchMade] at unmade
  split at unmade
  · rename_i malformed
    refine ⟨some (.skipped .malformed), fun buffer => ?_⟩
    simp only [handleChange, malformed]
    exact ⟨rfl, fun e he => by cases he⟩
  rename_i key revText named
  split at unmade
  · rename_i here
    obtain ⟨end_, -, ends⟩ := handleChange_here resolver json urlbase named here
    refine ⟨end_, fun buffer => ⟨(ends buffer).1, fun e he => ?_⟩⟩
    rw [(ends buffer).2, List.mem_singleton] at he
    exact ⟨_, _, by rw [he]⟩
  rename_i mine missing
  split at unmade
  · cases unmade
  · rename_i unready
    obtain ⟨end_, ends⟩ := fetchVersion_unready json urlbase unready key revText
      (laRevScan revText i.env.uninitRev).2 mine
    refine ⟨end_, fun buffer => ?_⟩
    obtain ⟨ran, calls⟩ := handleChange_missing resolver json urlbase named missing buffer
    rw [ran, calls, ends buffer]
    cases end_ with
    | none =>
      refine ⟨rfl, fun e he => ?_⟩
      rw [Option.elim_none, trace, List.mem_singleton] at he
      exact ⟨_, _, by rw [he]⟩
    | some o =>
      refine ⟨rfl, fun e he => ?_⟩
      rw [Option.elim_some, trace, List.mem_singleton] at he
      exact ⟨_, _, by rw [he]⟩

section Steps
variable {i : FeedEntry} {s : BdbStore} {f : Fetch}

theorem turnStep_unfetched (resolver : Resolver) (json : JsonLib)
    (unmade : fetchMade host urlbase i s = none) :
    ∃ end_ : Option Outcome, ∀ buffer,
      turnStep host resolver json urlbase (some ⟨buffer, s⟩) i =
        (end_, end_.map fun _ => ⟨buffer, s⟩) := by
  obtain ⟨end_, ends⟩ := handleChange_unfetched resolver json unmade
  refine ⟨end_, fun buffer => ?_⟩
  simp only [turnStep, (ends buffer).1]
  cases end_ <;> rfl

/-- A failed transfer leaves its bytes. -/
theorem turnStep_failed (resolver : Resolver) (json : JsonLib)
    (made : fetchMade host urlbase i s = some f) (failed : f.transfer.ok = false)
    (buffer : List UInt8) :
    turnStep host resolver json urlbase (some ⟨buffer, s⟩) i =
      (some (.skipped .transport), some ⟨buffer ++ f.transfer.delivered, s⟩) := by
  simp only [turnStep, (handleChange_fetched resolver json made buffer).1, afterTransfer, failed,
    Bool.false_eq_true, if_false, run]

/-- After a transfer that succeeded all that was received is parsed. -/
theorem turnStep_parsed (resolver : Resolver) (json : JsonLib)
    (made : fetchMade host urlbase i s = some f) (ok : f.transfer.ok = true)
    (buffer : List UInt8) :
    turnStep host resolver json urlbase (some ⟨buffer, s⟩) i =
      match run (servePull host resolver)
        (parseVersion json i.env f (buffer ++ f.transfer.delivered)) s with
      | none => (none, none)
      | some (outcome, s') => (some outcome, some ⟨[], s'⟩) := by
  simp only [turnStep, (handleChange_fetched resolver json made buffer).1, afterTransfer, ok,
    if_true, run_map]
  cases run (servePull host resolver)
    (parseVersion json i.env f (buffer ++ f.transfer.delivered)) s <;> rfl

end Steps

end Fetches

end PullTurns
