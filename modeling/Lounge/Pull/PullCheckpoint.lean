import Lounge.Pull.PullTurns

/-!
# The checkpoint

`la_pull_run` keeps the feed's `last_seq` before it looks at the changes, whatever
becomes of them. A change that could not be fetched is behind the checkpoint then,
unless the feed came without one.
-/

namespace PullCheckpoint
open ObjectStore CodecValue CouchRevgen RevScan LoungeApi BdbDriver Process PullModel PullTurns Runs

/-- The database a run finds, its environment, and the resolver it asks. -/
structure PullInput where
  store : BdbStore
  env : RunEnv
  resolver : Resolver

/-- The next run of a puller. One that crashes has no successor. -/
def pullStep (host : LaHost) (json : JsonLib) (p : Puller) (i : PullInput) :
    Option PullReturn × Puller :=
  match run (servePull host i.resolver) (laPullRun json i.env p) i.store with
  | none => (none, p)
  | some (ret, _) => (some ret, ret.puller)

abbrev PullRun := Event Puller PullInput (Option PullReturn)

/-- The change was passed over for a failed transfer, an answer that is no version, or want of
memory. -/
def failed : Outcome → Bool
  | .skipped .transport => true
  | .skipped .response => true
  | .skipped .allocation => true
  | _ => false

/-- The next run asks again for the changes that failed: `covers seq change` says that a feed
since `seq` leaves the change out. -/
def AsksAgain (covers : CString → LaCodecValue → Prop) (e : PullRun) : Prop :=
  ∀ ret ∈ e.output, ∀ o ∈ ret.handled, failed o.2 = true →
    ∀ seq ∈ e.after.lastSeq, ¬ covers seq o.1

/-- The object that the run received for a feed. -/
def feedObject (json : JsonLib) (env : RunEnv) (p : Puller) : Option LaCodecValue :=
  match initChangesFeed env.init p with
  | some (true, p) =>
    let (transfer, status) := env.feed p.url
    if transfer.ok && status == 200 then json.load env.jsonAllocated transfer.delivered else none
  | _ => none

/-- The feed of the run has no `last_seq`. -/
def NoLastSeq (json : JsonLib) (e : PullRun) : Prop :=
  ∀ feed ∈ feedObject json e.input.env e.before, feed.laCodecObjectGet lastSeqName = none

/-- What the server means by the `last_seq` of the feed, and that it is rendered as a text: a feed
since then has none of the changes that came with it. -/
structure FeedContract (json : JsonLib) (covers : CString → LaCodecValue → Prop) (e : PullRun) :
    Prop where
  renders : ∀ feed ∈ feedObject json e.input.env e.before,
    ∀ value ∈ feed.laCodecObjectGet lastSeqName, ∃ seq, json.dumps value = some seq
  past : ∀ feed ∈ feedObject json e.input.env e.before,
    ∀ value ∈ feed.laCodecObjectGet lastSeqName, ∀ seq ∈ json.dumps value,
      ∀ changes, feed.laCodecObjectGet resultsName = some (.array changes) →
        ∀ change ∈ changes, covers seq change

/-- A version arrives: the handle is set up, the transfer succeeds, what is in the buffer then is
a version, and there is memory for its revisions and the local ones. -/
structure Arrives (json : JsonLib) (env : ChangeEnv) (transfer : Transfer) (buffer : List UInt8)
    (mine : Option LaRev) : Prop where
  setup : env.setup = true
  succeeded : transfer.ok = true
  answer : (readVersion json env (buffer ++ transfer.delivered)).isSome = true
  remoteRevs : env.revsAllocated = true
  localRevs : mine.isSome = true → env.localAllocated = true

/-- A turn that comes to fetch a version gets it. -/
def Fetches (host : LaHost) (json : JsonLib) (urlbase : CString) (l : LoopState) (i : FeedEntry) :
    Prop :=
  ∀ key revText mine, changeKeyRev i.change = some (key, revText) →
    missingHere (laDbGet (bdbDb host i.env.getCalls) l.store key none)
      (laRevScan revText i.env.uninitRev).2 = some mine →
    Arrives json i.env (i.env.remote (documentUrl urlbase key revText)) l.buffer mine

/-- Every turn of the run does. -/
def AllArrive (host : LaHost) (json : JsonLib) (e : PullRun) : Prop :=
  ∀ t ∈ turns host e.input.resolver json e.input.env e.before e.input.store, ∀ l ∈ t.before,
    Fetches host json e.before.urlbase l t.input

section Turn
variable {host : LaHost} {json : JsonLib} {resolver : Resolver} {s s' : BdbStore} {o : Outcome}

theorem resolveConflict_passes (env : ChangeEnv) (key : CString) (rev thatrev : LaRev)
    (object : LaCodecValue) (ids : List LaStorageRev) :
    (resolveConflict env key rev thatrev object ids).AllResults fun o => failed o = false := by
  apply Proc.allResults_call
  intro mine
  split
  · apply Proc.allResults_call
    intro resolution
    cases resolution with
    | takeMine => rfl
    | takeTheirs => exact fun _ => rfl
    | takeMerged => exact fun _ => rfl
  · split
    · rfl
    · trivial

/-- With a version in hand the loop only fails for want of memory for the local revisions. -/
theorem takeVersion_failed (env : ChangeEnv) (key : CString) (mine : Option LaRev)
    (thatrev : LaRev) (object : LaCodecValue) (ids : List LaStorageRev) :
    (takeVersion env key mine thatrev object ids).AllResults fun o =>
      failed o = false ↔ (mine.isSome = true → env.localAllocated = true) := by
  cases mine with
  | none => exact Proc.allResults_call fun _ => ⟨fun _ here => (by cases here), fun _ => rfl⟩
  | some rev =>
    apply Proc.allResults_call
    intro all
    cases allocated : env.localAllocated with
    | false =>
      simp only [localRevs, Bool.not_false, if_true]
      exact ⟨fun passed => (by cases passed), fun short => absurd (short rfl) Bool.false_ne_true⟩
    | true =>
      have passes : ∀ {p : PullProc Outcome}, p.AllResults (fun o => failed o = false) →
          p.AllResults fun o => failed o = false ↔ ((some rev).isSome = true → true = true) :=
        fun all => all.mono fun o passed => by simp [passed]
      apply passes
      split
      · rename_i absent
        obtain ⟨mine, built⟩ := localRevs_some rev.rev all
        rw [built] at absent
        cases absent
      · split
        · exact Proc.allResults_call fun _ => rfl
        split
        · exact resolveConflict_passes env key rev thatrev object ids
        · rfl

/-- What the loop makes of a version that it comes to fetch. -/
theorem fetchVersion_failed {env : ChangeEnv} {key revText urlbase : CString}
    {mine : Option LaRev} {thatrev : LaRev} {buffer : List UInt8} :
    (fetchVersion env key json urlbase revText thatrev mine buffer).AllResults fun done =>
      failed done.1 = false ↔
        Arrives json env (env.remote (documentUrl urlbase key revText)) buffer mine := by
  simp only [fetchVersion]
  split
  · trivial
  split
  · rename_i setup
    exact ⟨fun passed => (by cases passed), fun arrives => by simp [arrives.setup] at setup⟩
  rename_i setup
  split
  · rename_i broken
    exact ⟨fun passed => (by cases passed), fun arrives => by simp [arrives.succeeded] at broken⟩
  rename_i succeeded
  split
  · rename_i unread
    refine ⟨fun passed => (by cases passed), fun arrives => ?_⟩
    have answer := arrives.answer
    rw [readVersion, unread] at answer
    cases answer
  rename_i object ids read_
  split
  · rename_i short
    exact ⟨fun passed => (by cases passed), fun arrives => by simp [arrives.remoteRevs] at short⟩
  rename_i remoteRevs
  split
  · trivial
  rename_i revs _
  apply Proc.allResults_map
  refine (takeVersion_failed env key mine thatrev object revs).mono fun o passes => ?_
  rw [passes]
  constructor
  · intro localRevs
    exact ⟨by simpa using setup, by simpa using succeeded, by rw [readVersion, read_]; rfl,
      by simpa using remoteRevs, localRevs⟩
  · exact fun arrives => arrives.localRevs

/-- A turn that returns has failed if and only if it did not get the version it came to fetch. -/
theorem handleChange_failed {urlbase : CString} {i : FeedEntry} {l : LoopState}
    {done : Outcome × List UInt8}
    (ran : run (servePull host resolver) (handleChange json urlbase i.env i.change l.buffer)
      l.store = some (done, s')) :
    failed done.1 = false ↔ Fetches host json urlbase l i := by
  cases named : changeKeyRev i.change with
  | none =>
    simp only [handleChange, named, run] at ran
    cases ran
    simp [failed, Fetches, named]
  | some announced =>
    obtain ⟨key, revText⟩ := announced
    cases missing : missingHere (laDbGet (bdbDb host i.env.getCalls) l.store key none)
        (laRevScan revText i.env.uninitRev).2 with
    | none =>
      obtain ⟨end_, passed, ends⟩ := handleChange_here resolver json urlbase named missing
      rw [(ends l.buffer).1] at ran
      obtain ⟨o, here, returned⟩ := Option.map_eq_some_iff.mp ran
      obtain ⟨rfl, -⟩ := Prod.mk.inj returned
      constructor
      · intro _ key' revText' mine named' missing'
        rw [named] at named'
        cases named'
        rw [missing] at missing'
        cases missing'
      · rintro -
        rcases passed o here with rfl | rfl <;> rfl
    | some mine =>
      rw [(handleChange_missing resolver json urlbase named missing l.buffer).1] at ran
      rw [fetchVersion_failed.of_run ran]
      constructor
      · intro arrives key' revText' mine' named' missing'
        rw [named] at named'
        cases named'
        rw [missing] at missing'
        cases missing'
        exact arrives
      · exact fun fetches => fetches key revText mine named missing

/-- The changes of a run that failed, and its turns that did not get their version. -/
theorem nothing_failed_iff {env : RunEnv} {p : Puller} {ret : PullReturn}
    (ran : run (servePull host resolver) (laPullRun json env p) s = some (ret, s')) :
    (∀ o ∈ ret.handled, failed o.2 = false) ↔
      ∀ t ∈ turns host resolver json env p s, ∀ l ∈ t.before,
        Fetches host json p.urlbase l t.input := by
  have outcomes := (run_laPullRun_turns ran).1
  have turn : ∀ t ∈ turns host resolver json env p s, ∀ l ∈ t.before, ∀ o, t.output = some o →
      (failed o = false ↔ Fetches host json p.urlbase l t.input) := by
    intro t ht l before o output
    have step := event_of_mem ht
    rw [before] at step
    rw [step] at output
    simp only [event, turnStep] at output
    split at output
    · cases output
    · rename_i done store ended
      cases output
      exact handleChange_failed ended
  constructor
  · intro passed t ht l before
    have listed : t.output ∈ ret.handled.map fun o => some o.2 :=
      outcomes ▸ List.mem_map_of_mem ht
    obtain ⟨o, mem, same⟩ := List.mem_map.mp listed
    exact (turn t ht l before o.2 same.symm).mp (passed o mem)
  · intro fetches o mem
    have listed : some o.2 ∈ outputs (turnStep host resolver json p.urlbase) (some ⟨[], s⟩)
        (loopEntries json env p) := outcomes ▸ List.mem_map_of_mem mem
    obtain ⟨t, ht, output⟩ := List.mem_map.mp listed
    cases before : t.before with
    | none =>
      have step := event_of_mem ht
      rw [before] at step
      rw [step] at output
      cases output
    | some l => exact (turn t ht l before o.2 output).mpr (fetches t ht l before)

end Turn

section Run
variable {host : LaHost} {json : JsonLib} {resolver : Resolver} {s : BdbStore}

/-- The loop has an outcome for each change. -/
theorem run_handleChanges {urlbase : CString} {envs : Nat → ChangeEnv} {i : Nat}
    {changes : List LaCodecValue} {buffer : List UInt8}
    {handled : List (LaCodecValue × Outcome)} {s' : BdbStore}
    (h : run (servePull host resolver) (handleChanges json urlbase envs i changes buffer) s =
      some (handled, s')) : handled.map Prod.fst = changes := by
  induction changes generalizing i buffer s handled s' with
  | nil =>
    cases h
    rfl
  | cons change rest ih =>
    rw [handleChanges, run_bind] at h
    obtain ⟨done, _, hrest⟩ := Option.bind_eq_some_iff.mp h
    rw [run_map] at hrest
    obtain ⟨others, hothers, hend⟩ := Option.map_eq_some_iff.mp hrest
    obtain ⟨rfl, -⟩ := Prod.mk.inj hend
    rw [List.map_cons, ih hothers]

/-- A run that handled changes received them in a feed, and kept the `last_seq` of that. -/
theorem run_laPullRun {env : RunEnv} {p : Puller} {ret : PullReturn} {s' : BdbStore}
    (h : run (servePull host resolver) (laPullRun json env p) s = some (ret, s')) :
    ret.handled = [] ∨ ∃ feed, feedObject json env p = some feed ∧
      ret.puller.lastSeq = (feed.laCodecObjectGet lastSeqName).bind json.dumps ∧
      feed.laCodecObjectGet resultsName = some (.array (ret.handled.map Prod.fst)) := by
  rcases laPullRun_cases json env p with ⟨-, trap | ⟨q, done⟩⟩ |
    ⟨q, feed, changes, init, arrived, loaded, results, -, loop⟩
  · rw [trap] at h
    cases h
  · rw [done] at h
    cases h
    exact Or.inl rfl
  · rw [loop, run_bind] at h
    obtain ⟨handled, hloop, hfinish⟩ := Option.bind_eq_some_iff.mp h
    obtain ⟨same, seq, -⟩ := run_finishRun hfinish
    refine Or.inr ⟨feed, ?_, seq, ?_⟩
    · simp only [feedObject, init, arrived, if_true]
      exact loaded
    · rw [same, run_handleChanges hloop]
      exact results

/-- One run: the checkpoint that is kept covers every change of the feed it came from. -/
theorem pullStep_asks_again_iff {covers : CString → LaCodecValue → Prop} {p : Puller}
    {i : PullInput} (contract : FeedContract json covers (event (pullStep host json) p i))
    (returns : (event (pullStep host json) p i).output.isSome = true) :
    AsksAgain covers (event (pullStep host json) p i) ↔
      AllArrive host json (event (pullStep host json) p i) ∨
        NoLastSeq json (event (pullStep host json) p i) := by
  cases ran : run (servePull host i.resolver) (laPullRun json i.env p) i.store with
  | none => simp [event, pullStep, ran] at returns
  | some end_ =>
    obtain ⟨ret, s'⟩ := end_
    have output : (event (pullStep host json) p i).output = some ret := by
      simp [event, pullStep, ran]
    have after : (event (pullStep host json) p i).after = ret.puller := by
      simp [event, pullStep, ran]
    have nothing : (∀ o ∈ ret.handled, failed o.2 = false) ↔
        AllArrive host json (event (pullStep host json) p i) := nothing_failed_iff ran
    rw [← nothing]
    constructor
    · intro asks
      rcases run_laPullRun ran with empty | ⟨feed, received, kept, results⟩
      · left
        simp [empty]
      · cases lastSeq : feed.laCodecObjectGet lastSeqName with
        | none =>
          right
          intro other other_
          have same : feed = other := Option.some.inj (received.symm.trans other_)
          exact same ▸ lastSeq
        | some value =>
          left
          intro o mem
          by_contra failure
          obtain ⟨seq, rendered⟩ := contract.renders feed received value lastSeq
          rw [lastSeq, Option.bind_some, rendered] at kept
          refine asks ret output o mem (by simpa using failure) seq ?_ ?_
          · rw [after]
            exact kept
          · exact contract.past feed received value lastSeq seq rendered _ results o.1
              (List.mem_map_of_mem mem)
    · rintro (passed | noSeq) ret' same o mem failure seq kept'
      · rw [output] at same
        cases same
        simp [passed o mem] at failure
      · rw [output] at same
        cases same
        rcases run_laPullRun ran with empty | ⟨feed, received, kept, results⟩
        · simp [empty] at mem
        · rw [noSeq feed received, Option.bind_none] at kept
          rw [after, kept] at kept'
          cases kept'

/-- Over every sequence of runs of a puller: a run that returns asks again for what failed exactly
if every version that it came to fetch arrived, or its feed came without `last_seq`. -/
theorem runs_ask_again_iff (host : LaHost) (json : JsonLib)
    (covers : CString → LaCodecValue → Prop) (p : Puller) (inputs : List PullInput) :
    ∀ e ∈ events (pullStep host json) p inputs, FeedContract json covers e →
      e.output.isSome = true →
        (AsksAgain covers e ↔ AllArrive host json e ∨ NoLastSeq json e) := by
  intro e he contract returns
  rw [event_of_mem he] at contract returns ⊢
  exact pullStep_asks_again_iff contract returns

end Run

section Runs
private def oneSeq : LaCodecValue := .array [.integer 1, .string (CString.ofBytes [103, 49])]

private def oneFeed : LaCodecValue :=
  changesFeed oneSeq [(CString.ofBytes [97], ⟨1, uniformRev 1⟩)]

private def newPuller : Puller := ⟨CString.ofBytes [117], CString.ofBytes [117], 63, none, false⟩

/-- The feed arrives, the document does not. -/
private def brokenTransfer : PullInput where
  store := bdbEmpty
  env :=
    { feed := fun _ => (⟨jsonText oneFeed, true⟩, 200)
      changes := fun _ => { remote := fun _ => ⟨[], false⟩ } }
  resolver := resolveMine

private def emptyDocs : LaHost := ⟨emptyObjectCodec, ⟨fun _ => zeroRev, fun _ => []⟩, none⟩

/-- A feed since the `last_seq` above has nothing of it. -/
private def coversOne (seq : CString) (_ : LaCodecValue) : Prop :=
  seq = CString.ofBytes (jsonText oneSeq)

theorem oneFeed_contract :
    FeedContract (textsOf [oneFeed]) coversOne
      (event (pullStep emptyDocs (textsOf [oneFeed])) newPuller brokenTransfer) := by
  have received : feedObject (textsOf [oneFeed]) brokenTransfer.env newPuller = some oneFeed :=
    textsOf_loadb oneFeed []
  have lastSeq : oneFeed.laCodecObjectGet lastSeqName = some oneSeq := rfl
  have rendered : (textsOf [oneFeed]).dumps oneSeq =
      some (CString.ofBytes (jsonText oneSeq)) := rfl
  constructor
  · intro feed feed_ value value_
    obtain rfl := Option.some.inj (received.symm.trans feed_)
    obtain rfl := Option.some.inj (lastSeq.symm.trans value_)
    exact ⟨_, rendered⟩
  · intro feed feed_ value value_ seq seq_ changes _ change _
    obtain rfl := Option.some.inj (received.symm.trans feed_)
    obtain rfl := Option.some.inj (lastSeq.symm.trans value_)
    exact (Option.some.inj (rendered.symm.trans seq_)).symm

theorem broken_run_asks_again_iff :
    AsksAgain coversOne (event (pullStep emptyDocs (textsOf [oneFeed])) newPuller brokenTransfer) ↔
      AllArrive emptyDocs (textsOf [oneFeed])
          (event (pullStep emptyDocs (textsOf [oneFeed])) newPuller brokenTransfer) ∨
        NoLastSeq (textsOf [oneFeed])
          (event (pullStep emptyDocs (textsOf [oneFeed])) newPuller brokenTransfer) :=
  runs_ask_again_iff emptyDocs (textsOf [oneFeed]) coversOne newPuller [brokenTransfer] _
    List.mem_cons_self oneFeed_contract (by decide +kernel)

/-- The transfer failed, the checkpoint is kept all the same. -/
theorem broken_transfer_not_asked_again :
    (∀ e ∈ events (pullStep emptyDocs (textsOf [oneFeed])) newPuller [brokenTransfer],
      FeedContract (textsOf [oneFeed]) coversOne e) ∧
    ¬ ∀ e ∈ events (pullStep emptyDocs (textsOf [oneFeed])) newPuller [brokenTransfer],
      AsksAgain coversOne e := by
  refine ⟨fun e he => ?_, fun asks => ?_⟩
  · rw [List.mem_singleton.mp he]
    exact oneFeed_contract
  have broken : ∃ e ∈ events (pullStep emptyDocs (textsOf [oneFeed])) newPuller [brokenTransfer],
      ∃ ret ∈ e.output.toList, e.after.lastSeq = some (CString.ofBytes (jsonText oneSeq)) ∧
        ∃ o ∈ ret.handled, failed o.2 = true := by
    decide +kernel
  obtain ⟨e, he, ret, hret, kept, o, mem, failure⟩ := broken
  exact asks e he ret (Option.mem_toList.mp hret) o mem failure _ kept rfl

end Runs

end PullCheckpoint
