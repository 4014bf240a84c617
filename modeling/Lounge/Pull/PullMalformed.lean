import Lounge.Pull.PullCalls
import Lounge.Pull.PullTurns

/-!
# Malformed versions

What `la_pull_run` reads of a feed and of a document, and what it hands to `la_db_replace` of
that. It takes what `la_rev_scan` left whether that got through or not, and looks at neither
the number nor the form of the ids.
-/

namespace PullMalformed
open ObjectStore CodecValue CouchRevgen RevScan LoungeApi BdbDriver Process IdleRuns PullModel
  PullTurns PullCalls Runs
open PullDecision (isWrite)

/-- An id of 32 hexadecimal digits. -/
def isId : LaCodecValue → Bool
  | .string str => str.bytes.length == 32 && str.bytes.all isHexDigit
  | _ => false

/-- The hash that an id spells. -/
def idRev : LaCodecValue → LaStorageRev
  | .string str => laStorageScanRev str zeroRev
  | _ => zeroRev

/-- A version whose ids the loop comes to scan. -/
structure Version where
  fetch : Fetch
  object : LaCodecValue
  ids : List LaCodecValue

/-- The revision that the loop takes a version for. -/
def Version.thatrev (v : Version) (env : ChangeEnv) : LaRev :=
  (laRevScan v.fetch.revText env.uninitRev).2

/-- The announced revision was read, and the ids are a history of it. -/
structure Version.WellFormed (v : Version) (env : ChangeEnv) : Prop where
  scanned : (laRevScan v.fetch.revText env.uninitRev).1 = true
  valid : ∀ id ∈ v.ids, isId id = true
  first : v.ids.head?.map idRev = some (v.thatrev env).rev

theorem Version.WellFormed.nonempty {v : Version} {env : ChangeEnv} (formed : v.WellFormed env) :
    v.ids ≠ [] := by
  intro empty
  have first := formed.first
  rw [empty] at first
  cases first

section Turns
variable (host : LaHost) (json : JsonLib) (urlbase : CString)

/-- The version of a turn. -/
def versionOf (e : Turn) : Option Version :=
  e.before.bind fun l =>
    (fetchMade host urlbase e.input l.store).bind fun f =>
      if f.transfer.ok && e.input.env.revsAllocated then
        (readVersion json e.input.env (l.buffer ++ f.transfer.delivered)).map fun v =>
          ⟨f, v.1, v.2⟩
      else none

/-- The turn has a version to write. -/
def Allows (e : Turn) : Prop :=
  ∃ v, versionOf host json urlbase e = some v ∧ v.WellFormed e.input.env

/-- The replace that a turn makes is given its version: the revision that was announced, its
ids, and one revision less than there are ids. -/
def GivenVersion (e : Turn) (rev : LaRev) (remoteRevs : List LaStorageRev) : Prop :=
  ∃ v, versionOf host json urlbase e = some v ∧ v.WellFormed e.input.env ∧
    rev = v.thatrev e.input.env ∧ remoteRevs = v.ids.map idRev ∧
    revcount remoteRevs.length = v.ids.length - 1

/-- The turn passes its change over: no id that it reads is invalid, nothing is written, and the
loop goes on with the store as it was. -/
structure PassesOver (resolver : Resolver) (e : Turn) : Prop where
  ids : ∀ v, versionOf host json urlbase e = some v → ∀ id ∈ v.ids, isId id = true
  silent : ∀ c ∈ turnCalls host resolver json urlbase e, isWrite c.input = false
  goesOn : ∀ l ∈ e.before, ∃ l', e.after = some l' ∧ l'.store = l.store

end Turns

/-- Whatever the server sends: a replace is given a well-formed version, and a change without
one is passed over. -/
structure RejectsMalformed (host : LaHost) (resolver : Resolver) (json : JsonLib) (env : RunEnv)
    (p : Puller) (s : BdbStore) : Prop where
  written : ∀ c ∈ trace (servePull host resolver) (laPullRun json env p) s,
    ∀ calls a key rev doc remoteRevs why,
      c.input = .replace calls a key rev doc remoteRevs why →
        ∃ e ∈ turns host resolver json env p s, c ∈ turnCalls host resolver json p.urlbase e ∧
          GivenVersion host json p.urlbase e rev remoteRevs
  skipped : ∀ e ∈ turns host resolver json env p s, ¬Allows host json p.urlbase e →
    PassesOver host json p.urlbase resolver e

/-- A conflict that writes nothing: the resolver takes the local version, or that cannot be read
and what is freed then does no harm. -/
def keepsMine (host : LaHost) (resolver : Resolver) (env : ChangeEnv) (s : BdbStore)
    (key : CString) (object : LaCodecValue) : Bool :=
  let ret := laDbGet (bdbDb host env.conflictCalls) s key none
  match ret.result, ret.value with
  | .ok, some value =>
    match resolver key value object with
    | .takeMine => true
    | _ => false
  | _, _ => env.garbageFreed

/-- With these revisions on both sides the loop writes nothing: the local version is ahead, or
stays in a conflict. -/
def leavesLocal (host : LaHost) (resolver : Resolver) (env : ChangeEnv) (s : BdbStore)
    (v : Version) : Bool :=
  match v.fetch.mine with
  | none => false
  | some rev =>
    match localRevs env.localAllocated rev.rev
        (laDbGetAllrevs (bdbDb host env.allrevsCalls) s v.fetch.key) with
    | none => true
    | some mine =>
      !laStorageRevsOverlap mine (v.ids.map idRev) &&
        (laStorageRevsOverlap (v.ids.map idRev) mine ||
          keepsMine host resolver env s v.fetch.key v.object)

/-- A version that is missing gets the memory for its URL. -/
def BuildsUrl (host : LaHost) (i : FeedEntry) (s : BdbStore) : Prop :=
  ∀ key revText, changeKeyRev i.change = some (key, revText) →
    missingHere (laDbGet (bdbDb host i.env.getCalls) s key none)
      (laRevScan revText i.env.uninitRev).2 ≠ none → i.env.urlBuilt = true

/-- The version that a turn comes to is well-formed, or its ids are and it is not written. -/
structure Checked (host : LaHost) (resolver : Resolver) (json : JsonLib) (urlbase : CString)
    (e : Turn) : Prop where
  url : ∀ l ∈ e.before, BuildsUrl host e.input l.store
  version : ∀ v, versionOf host json urlbase e = some v →
    v.WellFormed e.input.env ∨
      (∀ id ∈ v.ids, isId id = true) ∧
        ∀ l ∈ e.before, leavesLocal host resolver e.input.env l.store v = true

section Ids

theorem idRev_scanned {str : CString} (valid : isId (.string str) = true) (junk : LaStorageRev) :
    laStorageScanRev str junk = idRev (.string str) := by
  simp only [isId, Bool.and_eq_true, beq_iff_eq, List.all_eq_true] at valid
  obtain ⟨length, digits⟩ := valid
  apply laStorageScanRev_determined
  rw [length_stringUnhex digits, length, laObjectRevisionLen]

/-- Valid ids are all read, whatever the memory for them held. -/
theorem scanIds_valid (junk : Nat → LaStorageRev) (j : Nat) {ids : List LaCodecValue}
    (valid : ∀ id ∈ ids, isId id = true) : scanIds junk j ids = some (ids.map idRev) := by
  induction ids generalizing j with
  | nil => rfl
  | cons id rest ih =>
    have others := ih (j + 1) fun other mem => valid other (List.mem_cons_of_mem id mem)
    have here := valid id List.mem_cons_self
    cases id with
    | string str =>
      simp only [scanIds, LaCodecValue.laCodecStringValue, others, idRev_scanned here,
        List.map_cons]
    | _ => cases here

end Ids

section Turn
variable {host : LaHost} {resolver : Resolver} {json : JsonLib} {urlbase : CString}

/-- A version whose ids are valid is compared with the local one. -/
theorem parseVersion_valid {env : ChangeEnv} (allocated : env.revsAllocated = true)
    {bytes : List UInt8} {v : Version}
    (read : readVersion json env bytes = some (v.object, v.ids))
    (valid : ∀ id ∈ v.ids, isId id = true) :
    parseVersion json env v.fetch bytes =
      takeVersion env v.fetch.key v.fetch.mine (v.thatrev env) v.object (v.ids.map idRev) := by
  simp only [parseVersion, read, allocated, Bool.not_true, Bool.false_eq_true, if_false,
    scanIds_valid env.revsJunk 0 valid, Version.thatrev]

/-- A replace has this revision and these ids. -/
def Hands (thatrev : LaRev) (ids : List LaStorageRev) : PullCall → Prop
  | .replace _ _ _ rev _ remoteRevs _ => rev = thatrev ∧ remoteRevs = ids
  | _ => True

/-- A version is handed on as it is. -/
theorem takeVersion_hands (env : ChangeEnv) (key : CString) (mine : Option LaRev)
    (thatrev : LaRev) (object : LaCodecValue) (ids : List LaStorageRev) :
    (takeVersion env key mine thatrev object ids).AllCalls (Hands thatrev ids) := by
  cases mine with
  | none => exact ⟨⟨rfl, rfl⟩, fun _ => trivial⟩
  | some rev =>
    apply Proc.allCalls_call trivial
    intro all
    split
    · trivial
    · split
      · exact ⟨⟨rfl, rfl⟩, fun _ => trivial⟩
      · split
        · apply Proc.allCalls_call trivial
          intro mine
          split
          · apply Proc.allCalls_call trivial
            intro resolution
            cases resolution with
            | takeMine => trivial
            | takeTheirs => exact ⟨⟨rfl, rfl⟩, fun _ => trivial⟩
            | takeMerged => exact ⟨trivial, fun _ => trivial⟩
          · split <;> trivial
        · trivial

/-- The process returns without a write. -/
def StaysIdle {α : Type} (host : LaHost) (resolver : Resolver) (p : PullProc α) (s : BdbStore) :
    Prop :=
  ∃ a, Idle (servePull host resolver) isWrite p s a

section Idle
variable {α : Type} {s : BdbStore}

theorem staysIdle_done (a : α) : StaysIdle host resolver (.done a) s := ⟨a, idle_done a s⟩

theorem not_staysIdle_trap : ¬StaysIdle host resolver (.trap : PullProc α) s := by
  rintro ⟨a, returns, -⟩
  cases returns

theorem staysIdle_read {c : PullCall} (reads : isWrite c = false) {r : PullReply c}
    (served : servePull host resolver c s = some (r, s)) (k : PullReply c → PullProc α) :
    StaysIdle host resolver (.call c k) s ↔ StaysIdle host resolver (k r) s :=
  exists_congr fun _ => idle_read_iff reads served

theorem staysIdle_map {β : Type} {p : PullProc α} (f : α → β) :
    StaysIdle host resolver (p.map f) s ↔ StaysIdle host resolver p s := idle_map_iff f

theorem staysIdle_get (calls : BdbCalls) (key : CString) (k : LaDbGetReturn → PullProc α) :
    StaysIdle host resolver (.call (.get calls key) k) s ↔
      StaysIdle host resolver (k (laDbGet (bdbDb host calls) s key none)) s :=
  staysIdle_read (c := .get calls key) rfl rfl k

theorem staysIdle_getAllrevs (calls : BdbCalls) (key : CString)
    (k : Int × Option (List LaStorageRev) → PullProc α) :
    StaysIdle host resolver (.call (.getAllrevs calls key) k) s ↔
      StaysIdle host resolver (k (laDbGetAllrevs (bdbDb host calls) s key)) s :=
  staysIdle_read (c := .getAllrevs calls key) rfl rfl k

theorem staysIdle_resolve (key : CString) (mine theirs : LaCodecValue) (rev : Option LaRev)
    (k : Resolution → PullProc α) :
    StaysIdle host resolver (.call (.resolve key mine theirs rev) k) s ↔
      StaysIdle host resolver (k (resolver key mine theirs)) s :=
  staysIdle_read (c := .resolve key mine theirs rev) rfl rfl k

theorem not_staysIdle_write {c : PullCall} (write : isWrite c = true)
    (k : PullReply c → PullProc α) : ¬StaysIdle host resolver (.call c k) s := by
  rintro ⟨a, idle⟩
  exact not_idle_write write k s a idle

theorem resolveConflict_idle_iff (env : ChangeEnv) (key : CString) (rev thatrev : LaRev)
    (object : LaCodecValue) (ids : List LaStorageRev) :
    StaysIdle host resolver (resolveConflict env key rev thatrev object ids) s ↔
      keepsMine host resolver env s key object = true := by
  rw [resolveConflict, staysIdle_get, keepsMine]
  obtain ⟨result, value, current⟩ := laDbGet (bdbDb host env.conflictCalls) s key none
  have unread : StaysIdle host resolver
      (if env.garbageFreed then .done (.skipped .conflictGet) else .trap : PullProc Outcome) s ↔
        env.garbageFreed = true := by
    cases env.garbageFreed with
    | true => exact iff_of_true (staysIdle_done _) rfl
    | false => exact iff_of_false not_staysIdle_trap Bool.false_ne_true
  cases result with
  | notFound => exact unread
  | error => exact unread
  | ok =>
    cases value with
    | none => exact unread
    | some value =>
      simp only [staysIdle_resolve]
      cases resolver key value object with
      | takeMine => exact iff_of_true (staysIdle_done _) rfl
      | takeTheirs => exact iff_of_false (not_staysIdle_write rfl _) Bool.false_ne_true
      | takeMerged => exact iff_of_false (not_staysIdle_write rfl _) Bool.false_ne_true

/-- The loop writes a version unless it leaves the local one. -/
theorem takeVersion_idle_iff (env : ChangeEnv) (v : Version) :
    StaysIdle host resolver (takeVersion env v.fetch.key v.fetch.mine (v.thatrev env) v.object
      (v.ids.map idRev)) s ↔ leavesLocal host resolver env s v = true := by
  rw [leavesLocal]
  cases found : v.fetch.mine with
  | none => exact iff_of_false (not_staysIdle_write rfl _) Bool.false_ne_true
  | some rev =>
    simp only [takeVersion, compareRevs, staysIdle_getAllrevs]
    cases built : localRevs env.localAllocated rev.rev
        (laDbGetAllrevs (bdbDb host env.allrevsCalls) s v.fetch.key) with
    | none => exact iff_of_true (staysIdle_done _) rfl
    | some mine =>
      by_cases behind : laStorageRevsOverlap mine (v.ids.map idRev) = true
      · simp only [behind, if_true, Bool.not_true, Bool.false_and]
        exact iff_of_false (not_staysIdle_write rfl _) Bool.false_ne_true
      · by_cases ahead : laStorageRevsOverlap (v.ids.map idRev) mine = true
        · simp [behind, ahead, staysIdle_done]
        · simp [behind, ahead, resolveConflict_idle_iff]

theorem staysIdle_iff {p : PullProc α} :
    StaysIdle host resolver p s ↔
      (∃ a, run (servePull host resolver) p s = some (a, s)) ∧
        ∀ e ∈ trace (servePull host resolver) p s, isWrite e.input = false := by
  rw [← firstWrite_eq_none]
  constructor
  · rintro ⟨a, idle⟩
    exact ⟨⟨a, idle.returns⟩, idle.silent⟩
  · rintro ⟨⟨a, ran⟩, silent⟩
    exact ⟨a, ran, silent⟩

/-- A document that is found has a revision. -/
theorem laDbGet_found (db : LaDb BdbStore) (s : BdbStore) (key : CString) (rev : Option LaRev)
    (found : (laDbGet db s key rev).result = .ok) : (laDbGet db s key rev).currentRev ≠ none := by
  unfold laDbGet at found ⊢
  grind

/-- Where nothing is missing the change is passed over. -/
theorem handleChange_here_idle {i : FeedEntry} {key revText : CString} {buffer : List UInt8}
    (named : changeKeyRev i.change = some (key, revText))
    (here : missingHere (laDbGet (bdbDb host i.env.getCalls) s key none)
      (laRevScan revText i.env.uninitRev).2 = none) :
    StaysIdle host resolver (handleChange json urlbase i.env i.change buffer) s := by
  have known := laDbGet_found (bdbDb host i.env.getCalls) s key none
  simp only [handleChange, named, staysIdle_get]
  generalize laDbGet (bdbDb host i.env.getCalls) s key none = ret at here known ⊢
  obtain ⟨result, value, current⟩ := ret
  cases result with
  | notFound => cases here
  | error => exact staysIdle_done _
  | ok =>
    cases current with
    | none => exact absurd rfl (known rfl)
    | some rev =>
      simp only [missingHere] at here
      split at here
      · rename_i same
        simp only [if_pos same]
        exact staysIdle_done _
      · cases here

/-- A change is handled without a write if the URL that it needs gets its memory and nothing is
written behind the transfer. -/
theorem handleChange_idle_iff {i : FeedEntry} {buffer : List UInt8} :
    StaysIdle host resolver (handleChange json urlbase i.env i.change buffer) s ↔
      BuildsUrl host i s ∧ ∀ f, fetchMade host urlbase i s = some f →
        StaysIdle host resolver (afterTransfer json i.env f buffer) s := by
  cases named : changeKeyRev i.change with
  | none => simp [handleChange, BuildsUrl, fetchMade, named, staysIdle_done]
  | some keyRev =>
    obtain ⟨key, revText⟩ := keyRev
    cases missing : missingHere (laDbGet (bdbDb host i.env.getCalls) s key none)
        (laRevScan revText i.env.uninitRev).2 with
    | none =>
      have idle : StaysIdle host resolver (handleChange json urlbase i.env i.change buffer) s :=
        handleChange_here_idle named missing
      simp [idle, BuildsUrl, fetchMade, named, missing]
    | some mine =>
      obtain ⟨ran, calls⟩ := handleChange_missing resolver json urlbase named missing buffer
      have rest : StaysIdle host resolver (handleChange json urlbase i.env i.change buffer) s ↔
          StaysIdle host resolver (fetchVersion i.env key json urlbase revText
            (laRevScan revText i.env.uninitRev).2 mine buffer) s := by
        have reads : isWrite (PullCall.get i.env.getCalls key) = false := rfl
        rw [staysIdle_iff, staysIdle_iff, ran, calls, List.forall_mem_cons, and_iff_right reads]
      rw [rest]
      cases built : i.env.urlBuilt with
      | false => simp [fetchVersion, built, not_staysIdle_trap, BuildsUrl, named, missing]
      | true =>
        cases setup : i.env.setup with
        | false => simp [fetchVersion, built, setup, staysIdle_done, BuildsUrl, fetchMade, named,
            missing]
        | true =>
          rw [fetchVersion_ready (by rw [built, setup]; rfl)]
          simp [built, setup, BuildsUrl, fetchMade, named, missing]

/-- With valid ids the turn goes through without a write exactly if its URL gets its memory and
the loop leaves the local version. -/
theorem turn_idle_iff {e : Turn} {l : LoopState} (before : e.before = some l)
    (valid : ∀ v, versionOf host json urlbase e = some v → ∀ id ∈ v.ids, isId id = true) :
    StaysIdle host resolver (handleChange json urlbase e.input.env e.input.change l.buffer)
        l.store ↔
      BuildsUrl host e.input l.store ∧ ∀ v, versionOf host json urlbase e = some v →
        leavesLocal host resolver e.input.env l.store v = true := by
  rw [handleChange_idle_iff]
  apply and_congr_right'
  simp only [versionOf, before, Option.bind_some] at valid ⊢
  cases made : fetchMade host urlbase e.input l.store with
  | none => simp
  | some f =>
    simp only [made, Option.bind_some] at valid
    simp only [Option.some.injEq, forall_eq', Option.bind_some, afterTransfer]
    cases ok : f.transfer.ok with
    | false => simp [staysIdle_done]
    | true =>
      simp only [ok, if_true, Bool.true_and] at valid ⊢
      rw [staysIdle_map]
      cases read : readVersion json e.input.env (l.buffer ++ f.transfer.delivered) with
      | none => simpa [parseVersion, read] using staysIdle_done _
      | some version =>
        cases allocated : e.input.env.revsAllocated with
        | false => simpa [parseVersion, read, allocated] using staysIdle_done _
        | true =>
          simp only [read, allocated, if_true, Option.map_some, Option.some.injEq,
            forall_eq'] at valid ⊢
          have parsed := parseVersion_valid (v := ⟨f, version.1, version.2⟩) allocated read valid
          rw [parsed]
          exact takeVersion_idle_iff e.input.env ⟨f, version.1, version.2⟩

end Idle

/-- A turn with a version whose ids are valid: the local get, and what becomes of the version. -/
theorem turnCalls_version (resolver : Resolver) {e : Turn} {v : Version}
    (version : versionOf host json urlbase e = some v) (valid : ∀ id ∈ v.ids, isId id = true) :
    ∃ l, e.before = some l ∧ turnCalls host resolver json urlbase e =
      ⟨l.store, .get e.input.env.getCalls v.fetch.key, true, l.store⟩ ::
        trace (servePull host resolver) (takeVersion e.input.env v.fetch.key v.fetch.mine
          (v.thatrev e.input.env) v.object (v.ids.map idRev)) l.store := by
  obtain ⟨l, before, fetched⟩ := Option.bind_eq_some_iff.mp version
  obtain ⟨f, made, hread⟩ := Option.bind_eq_some_iff.mp fetched
  split at hread
  · rename_i ready
    obtain ⟨ok, allocated⟩ := Bool.and_eq_true_iff.mp ready
    obtain ⟨⟨object, ids⟩, read, rfl⟩ := Option.map_eq_some_iff.mp hread
    refine ⟨l, before, ?_⟩
    simp only [turnCalls, before]
    rw [(handleChange_fetched resolver json made l.buffer).2, afterTransfer, if_pos ok, trace_map,
      parseVersion_valid allocated read valid]
  · cases hread

/-- A version was fetched, so the memory for its URL was there. -/
theorem versionOf_buildsUrl {e : Turn} {v : Version}
    (version : versionOf host json urlbase e = some v) :
    ∀ l ∈ e.before, BuildsUrl host e.input l.store := by
  intro l before key revText named missing
  rw [versionOf, before, Option.bind_some] at version
  obtain ⟨f, made, -⟩ := Option.bind_eq_some_iff.mp version
  simp only [fetchMade, named] at made
  split at made
  · cases made
  · split at made
    · rename_i ready
      exact (Bool.and_eq_true_iff.mp ready).1
    · cases made

theorem silent_of_idle {e : Turn}
    (idle : ∀ l ∈ e.before, StaysIdle host resolver
      (handleChange json urlbase e.input.env e.input.change l.buffer) l.store) :
    ∀ c ∈ turnCalls host resolver json urlbase e, isWrite c.input = false := by
  simp only [turnCalls]
  cases before : e.before with
  | none => exact fun c hc => by cases hc
  | some l => exact (staysIdle_iff.mp (idle l before)).2

/-- A turn passes its change over if its ids are valid and it goes through without a write. -/
theorem passesOver_iff {st : Option LoopState} {i : FeedEntry} {e : Turn}
    (turn : e = event (turnStep host resolver json urlbase) st i) :
    PassesOver host json urlbase resolver e ↔
      (∀ v, versionOf host json urlbase e = some v → ∀ id ∈ v.ids, isId id = true) ∧
        ∀ l ∈ e.before, StaysIdle host resolver
          (handleChange json urlbase e.input.env e.input.change l.buffer) l.store := by
  subst turn
  constructor
  · rintro ⟨valid, silent, goesOn⟩
    refine ⟨valid, ?_⟩
    rintro l (rfl : st = some l)
    obtain ⟨l', after, same⟩ := goesOn l rfl
    simp only [event, turnStep] at after
    split at after
    · cases after
    · rename_i done s ran
      obtain rfl := Option.some.inj after
      obtain rfl : s = l.store := same
      exact staysIdle_iff.mpr ⟨⟨done, ran⟩, silent⟩
  · rintro ⟨valid, idle⟩
    refine ⟨valid, silent_of_idle idle, ?_⟩
    rintro l (rfl : st = some l)
    obtain ⟨done, returns, -⟩ := idle l rfl
    simp only [event] at returns
    exact ⟨⟨done.2, l.store⟩, by simp only [event, turnStep, returns], rfl⟩

/-- A checked turn whose version is not well-formed goes through without a write. -/
theorem idle_of_checked {e : Turn} (checked : Checked host resolver json urlbase e)
    (refused : ¬Allows host json urlbase e) :
    (∀ v, versionOf host json urlbase e = some v → ∀ id ∈ v.ids, isId id = true) ∧
      ∀ l ∈ e.before, StaysIdle host resolver
        (handleChange json urlbase e.input.env e.input.change l.buffer) l.store := by
  have left : ∀ v, versionOf host json urlbase e = some v →
      (∀ id ∈ v.ids, isId id = true) ∧
        ∀ l ∈ e.before, leavesLocal host resolver e.input.env l.store v = true := by
    intro v version
    rcases checked.version v version with formed | left
    · exact absurd ⟨v, version, formed⟩ refused
    · exact left
  have valid := fun v version => (left v version).1
  refine ⟨valid, fun l before => ?_⟩
  rw [turn_idle_iff before valid]
  exact ⟨checked.url l before, fun v version => (left v version).2 l before⟩

/-- A call that writes a version is given it. -/
theorem turn_given {e : Turn} (checked : Checked host resolver json urlbase e)
    {c : Event BdbStore PullCall Bool} (mem : c ∈ turnCalls host resolver json urlbase e)
    {calls : BdbCalls} {a : ApiCalls} {key : CString} {rev : LaRev} {doc : LaCodecValue}
    {remoteRevs : List LaStorageRev} {why : WriteReason}
    (input : c.input = .replace calls a key rev doc remoteRevs why) :
    GivenVersion host json urlbase e rev remoteRevs := by
  have writes : isWrite c.input = true := by rw [input]; rfl
  by_cases allows : Allows host json urlbase e
  · obtain ⟨v, version, formed⟩ := allows
    obtain ⟨l, before, made⟩ := turnCalls_version resolver version formed.valid
    rw [made, List.mem_cons] at mem
    rcases mem with rfl | mem
    · cases writes
    · have hands : Hands (v.thatrev e.input.env) (v.ids.map idRev) c.input :=
        (takeVersion_hands e.input.env v.fetch.key v.fetch.mine (v.thatrev e.input.env) v.object
          (v.ids.map idRev)).allEvents l.store c mem
      rw [input] at hands
      obtain ⟨rfl, rfl⟩ := hands
      refine ⟨v, version, formed, rfl, rfl, ?_⟩
      rw [revcount, List.length_map, if_neg (mt List.length_eq_zero_iff.mp formed.nonempty)]
  · rw [silent_of_idle (idle_of_checked checked allows).2 c mem] at writes
    cases writes

end Turn

/-- Malformed data is rejected in a run exactly if every URL that the loop needs gets its memory
and every version whose ids it comes to scan is well-formed, or has valid ids and is not
written. -/
theorem malformed_rejected_iff (host : LaHost) (resolver : Resolver) (json : JsonLib)
    (env : RunEnv) (p : Puller) (s : BdbStore) :
    RejectsMalformed host resolver json env p s ↔
      ∀ e ∈ turns host resolver json env p s, Checked host resolver json p.urlbase e := by
  constructor
  · intro rejects e he
    by_cases allows : Allows host json p.urlbase e
    · obtain ⟨v, version, formed⟩ := allows
      refine ⟨versionOf_buildsUrl version, fun v' version' => Or.inl ?_⟩
      obtain rfl : v = v' := Option.some.inj (version.symm.trans version')
      exact formed
    · obtain ⟨valid, idle⟩ := (passesOver_iff (event_of_mem he)).mp (rejects.skipped e he allows)
      have passed := fun l before => (turn_idle_iff before valid).mp (idle l before)
      exact ⟨fun l before => (passed l before).1, fun v version =>
        Or.inr ⟨valid v version, fun l before => (passed l before).2 v version⟩⟩
  · intro checked
    constructor
    · intro c hc calls a key rev doc remoteRevs why input
      rw [trace_laPullRun] at hc
      obtain ⟨e, he, mem⟩ := List.mem_flatMap.mp hc
      exact ⟨e, he, mem, turn_given (checked e he) mem input⟩
    · intro e he refused
      exact (passesOver_iff (event_of_mem he)).mpr (idle_of_checked (checked e he) refused)

section Samples

private def malformedHost : LaHost := ⟨emptyObjectCodec, ⟨fun _ => zeroRev, fun _ => []⟩, none⟩

private def announcedFeed : LaCodecValue :=
  changesFeed (.integer 1) [(CString.ofBytes [97], ⟨1, uniformRev 1⟩)]

/-- A document whose `_revisions` has these ids. -/
private def versionWith (ids : List LaCodecValue) : LaCodecValue :=
  .object [(revisionsName, .object [(startName, .integer 1), (idsName, .array ids)])]

private def serverWith (ids : List LaCodecValue) : RunEnv where
  feed := fun _ => (⟨jsonText announcedFeed, true⟩, 200)
  changes := fun _ => { remote := fun _ => ⟨jsonText (versionWith ids), true⟩ }

private def malformedPuller : Puller :=
  ⟨CString.ofBytes [117], CString.ofBytes [117], 63, none, false⟩

private def turnsWith (ids : List LaCodecValue) : List Turn :=
  turns malformedHost resolveMine (textsOf [announcedFeed, versionWith ids]) (serverWith ids)
    malformedPuller bdbEmpty

/-- A version with no id or an invalid one is written, or its invalid id read. -/
private def takesMalformed (ids : List LaCodecValue) (e : Turn) : Bool :=
  match versionOf malformedHost (textsOf [announcedFeed, versionWith ids])
      malformedPuller.urlbase e with
  | none => false
  | some v =>
    !v.ids.all isId || v.ids.isEmpty && (turnCalls malformedHost resolveMine
      (textsOf [announcedFeed, versionWith ids]) malformedPuller.urlbase e).any
        fun c => isWrite c.input

private theorem malformed_taken {ids : List LaCodecValue}
    (taken : ∃ e ∈ turnsWith ids, takesMalformed ids e = true) :
    ¬RejectsMalformed malformedHost resolveMine (textsOf [announcedFeed, versionWith ids])
      (serverWith ids) malformedPuller bdbEmpty := by
  intro rejects
  obtain ⟨e, he, takes⟩ := taken
  simp only [takesMalformed] at takes
  split at takes
  · cases takes
  · rename_i v version
    have refused : ¬Allows malformedHost (textsOf [announcedFeed, versionWith ids])
        malformedPuller.urlbase e := by
      rintro ⟨v', version', formed⟩
      obtain rfl : v = v' := Option.some.inj (version.symm.trans version')
      have valid : v.ids.all isId = true := List.all_eq_true.mpr formed.valid
      simp [valid, formed.nonempty] at takes
    have passes := rejects.skipped e he refused
    have valid : v.ids.all isId = true := List.all_eq_true.mpr (passes.ids v version)
    rw [valid, Bool.not_true, Bool.false_or, Bool.and_eq_true, List.any_eq_true] at takes
    obtain ⟨-, c, mem, writes⟩ := takes
    rw [passes.silent c mem] at writes
    cases writes

/-- Without ids a version is written with `(size_t) -1` revisions, and an id that is no string
is read. -/
theorem malformed_not_rejected :
    ¬RejectsMalformed malformedHost resolveMine (textsOf [announcedFeed, versionWith []])
        (serverWith []) malformedPuller bdbEmpty ∧
      ¬RejectsMalformed malformedHost resolveMine
        (textsOf [announcedFeed, versionWith [.integer 1]]) (serverWith [.integer 1])
        malformedPuller bdbEmpty :=
  ⟨malformed_taken (by decide +kernel), malformed_taken (by decide +kernel)⟩

end Samples

end PullMalformed
