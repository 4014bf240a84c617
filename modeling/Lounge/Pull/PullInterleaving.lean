import Lounge.Pull.PullCalls
import Lounge.Pull.PullWrites

/-!
# A puller among other writers

The handling of one change to a key is a process; between its calls other clients put
the same key. The puller writes with `la_db_replace`, which compares nothing, and a put
keeps one revision of the history only, so what was acknowledged survives as long as
neither of them finds more to keep than it does.
-/

namespace PullInterleaving
open ObjectStore CodecValue CouchRevgen RevScan LoungeApi BdbDriver BdbRecord BdbPut BdbApi
  Process PullModel PullCalls PullWrites Runs

/-- The revision is the current one of the key, or in its stored history. -/
def Keeps (s : BdbStore) (key : CString) (rev : LaStorageRev) : Prop :=
  ∃ d : DocRecord, s.db.lookup key = some d.bytes ∧ rev ∈ d.header.rev :: d.history

/-- The database and the puller, with the revisions whose puts were acknowledged and those
under which the resolver was shown a document. -/
structure Race where
  store : BdbStore
  pull : PullProc (Outcome × List UInt8)
  acked : List LaStorageRev
  shown : List LaStorageRev

/-- A client's `la_db_put` of the key, or the next call of the puller; a resolver with a baton
may answer differently each time. -/
inductive Move where
  | client (calls : BdbCalls) (c : ApiCalls) (rev : Option LaRev) (doc : Option LaCodecValue)
  | puller (resolver : Resolver)

def acknowledged (ret : LaDbPutReturn BdbStore) : List LaStorageRev :=
  if ret.result = .ok then (ret.newrev.map LaRev.rev).toList else []

def shownBy : Option PullCall → List LaStorageRev
  | some (.resolve _ _ _ rev) => (rev.map LaRev.rev).toList
  | _ => []

def raceStep (host : LaHost) (key : CString) (r : Race) : Move → Unit × Race
  | .client calls c rev doc =>
    match laDbPut (bdbDb host calls) c r.store (some key) rev doc with
    | none => ((), r)
    | some ret => ((), { r with store := ret.store, acked := acknowledged ret ++ r.acked })
  | .puller resolver =>
    let moved := advance (servePull host resolver) r.store r.pull
    ((), { r with store := moved.2.1, pull := moved.2.2, shown := shownBy moved.1 ++ r.shown })

abbrev RaceEvent := Event Race Move Unit

/-- No acknowledged revision is lost, unless the resolver was shown its document. -/
def NoLoss (key : CString) (r : Race) : Prop :=
  ∀ rev ∈ r.acked, rev ∉ r.shown → Keeps r.store key rev

/-- The commit of the put does not fail, its record fits, and no acknowledged revision is
stored behind the one the put replaces. -/
def PutKeeps (host : LaHost) (key : CString) (r : Race) (calls : BdbCalls)
    (base : Option LaRev) (doc : Option LaCodecValue) : Prop :=
  calls.txnCommit = true ∧
  (∀ v ∈ doc, ∀ data ∈ host.encode (putDoc v),
    headerSize + 16 * laObjectMaxRevisionCount + data.length < 2 ^ 32) ∧
  ∀ value ∈ r.store.db.lookup key,
    base.map LaRev.rev = some (partialHeader calls.stack value).rev →
      ∀ rev ∈ r.acked, rev ∉ r.shown → rev = (partialHeader calls.stack value).rev

/-- The revision the decision was based on, if the local version was behind. -/
def comparedRev : WriteReason → Option LaStorageRev
  | .behind rev => some rev.rev
  | _ => none

/-- If the replace goes through, its record fits and every acknowledged revision, save the one
that was compared, is the announced one or comes after the first of the ids; that is the
announced one if there was a comparison. -/
def ReplaceKeeps (host : LaHost) (r : Race) (calls : BdbCalls) (thatrev : LaRev)
    (doc : LaCodecValue) (ids : List LaStorageRev) (why : WriteReason) : Prop :=
  WritesThrough calls →
    ids.length ≤ 2 ^ 15 ∧
    (∀ data ∈ host.encode (replaceDoc doc), headerSize + 16 * ids.length + data.length < 2 ^ 32) ∧
    (∀ rev ∈ r.acked, rev ∉ r.shown →
      some rev = comparedRev why ∨ rev ∈ thatrev.rev :: ids.tail) ∧
    ((comparedRev why).isSome = true → ids.head? = some thatrev.rev)

/-- The put that the move is about to make. -/
def pendingPut (e : RaceEvent) : Option (BdbCalls × Option LaRev × Option LaCodecValue) :=
  match e.input with
  | .client calls _ rev doc => some (calls, rev, doc)
  | .puller _ =>
    match e.before.pull with
    | .call (.put calls _ _ rev doc) _ => some (calls, some rev, doc)
    | _ => none

/-- The replace that the move is about to make. -/
def pendingReplace (e : RaceEvent) :
    Option (BdbCalls × LaRev × LaCodecValue × List LaStorageRev × WriteReason) :=
  match e.input with
  | .client .. => none
  | .puller _ =>
    match e.before.pull with
    | .call (.replace calls _ _ thatrev doc ids why) _ => some (calls, thatrev, doc, ids, why)
    | _ => none

def Conforms (host : LaHost) (key : CString) (e : RaceEvent) : Prop :=
  (∀ put ∈ pendingPut e, PutKeeps host key e.before put.1 put.2.1 put.2.2) ∧
  ∀ w ∈ pendingReplace e, ReplaceKeeps host e.before w.1 w.2.1 w.2.2.1 w.2.2.2.1 w.2.2.2.2

instance (host : LaHost) (key : CString) (r : Race) (calls : BdbCalls) (base : Option LaRev)
    (doc : Option LaCodecValue) : Decidable (PutKeeps host key r calls base doc) :=
  inferInstanceAs (Decidable (_ ∧ _ ∧ _))

instance (host : LaHost) (r : Race) (calls : BdbCalls) (thatrev : LaRev) (doc : LaCodecValue)
    (ids : List LaStorageRev) (why : WriteReason) :
    Decidable (ReplaceKeeps host r calls thatrev doc ids why) :=
  inferInstanceAs (Decidable (_ → _))

instance (host : LaHost) (key : CString) (e : RaceEvent) : Decidable (Conforms host key e) :=
  inferInstanceAs (Decidable (_ ∧ _))

/-- The puller writes no other key, and where it found itself behind, the revision it compared
is among the ids it writes. -/
def CallFits (key : CString) : PullCall → Prop
  | .replace _ _ k _ _ ids why => k = key ∧ ∀ rev ∈ comparedRev why, rev ∈ ids
  | .put _ _ k _ _ => k = key
  | _ => True

theorem handleChange_calls (env : ChangeEnv) {change : LaCodecValue} {key revText : CString}
    (named : changeKeyRev change = some (key, revText)) (json : JsonLib) (urlbase : CString)
    (buffer : List UInt8) :
    (handleChange json urlbase env change buffer).AllCalls (CallFits key) := by
  apply (handleChange_writesLast named).allCalls
  rintro c ⟨rfl, fits⟩
  cases c with
  | replace calls api key' rev doc ids why =>
    constructor
    · rfl
    · intro rev' compared
      cases why with
      | added => cases compared
      | behind mine =>
        cases compared
        exact fits.2 mine rfl
      | theirs => cases compared
  | put => rfl
  | get => trivial
  | getAllrevs => trivial
  | resolve => trivial

section Step
variable {host : LaHost} {key : CString} {r : Race}

/-- A put that conforms loses nothing, and keeps what it acknowledges. -/
theorem put_noLoss (noLoss : NoLoss key r) {calls : BdbCalls} {c : ApiCalls}
    {base : Option LaRev} {doc : Option LaCodecValue} {ret : LaDbPutReturn BdbStore}
    (h : laDbPut (bdbDb host calls) c r.store (some key) base doc = some ret)
    (conforms : PutKeeps host key r calls base doc) :
    (∀ rev ∈ r.acked, rev ∉ r.shown → Keeps ret.store key rev) ∧
      ∀ rev ∈ acknowledged ret, Keeps ret.store key rev := by
  obtain ⟨commit, fits, behind⟩ := conforms
  rcases doLaDbPut_record h fits with ⟨same, failed⟩ | ⟨v, d, rfl, hdb, hnew, base_⟩
  · refine ⟨fun rev mem hidden => same ▸ noLoss rev mem hidden, fun rev mem => ?_⟩
    by_cases ok : ret.result = .ok
    · simp [failed ok] at commit
    · simp [acknowledged, ok] at mem
  · have found : ret.store.db.lookup key = some d.bytes := by
      rw [hdb]
      exact AList.lookup_insert _
    refine ⟨fun rev mem hidden => ⟨d, found, List.mem_cons_of_mem _ ?_⟩, fun rev mem => ?_⟩
    · obtain ⟨old, stored, _⟩ := noLoss rev mem hidden
      obtain ⟨named, kept⟩ := base_ old.bytes stored
      rw [behind old.bytes stored named rev mem hidden]
      exact kept
    · refine ⟨d, found, ?_⟩
      by_cases ok : ret.result = .ok
      · simp only [acknowledged, if_pos ok, hnew, Option.map_some, Option.toList_some,
          List.mem_singleton] at mem
        exact mem ▸ List.mem_cons_self
      · simp [acknowledged, ok] at mem

/-- The same of a replace. -/
theorem replace_noLoss (noLoss : NoLoss key r) {calls : BdbCalls} {c : ApiCalls}
    {thatrev : LaRev} {doc : LaCodecValue} {ids : List LaStorageRev} {why : WriteReason}
    {ret : LaDbPutReturn BdbStore}
    (h : laDbReplace (bdbDb host calls) c r.store (some key) (some thatrev) (some doc)
      (some ids.tail) (revcount ids.length) = some ret)
    (compared : ∀ rev ∈ comparedRev why, rev ∈ ids)
    (conforms : ReplaceKeeps host r calls thatrev doc ids why) :
    ∀ rev ∈ r.acked, rev ∉ r.shown → Keeps ret.store key rev := by
  intro rev mem hidden
  have fits := fun through => (conforms through).imp_right And.left
  rcases replace_version h fits with ⟨same, _⟩ | ⟨d, through, hdb, hrev, _, hhistory, _⟩
  · rw [same]
    exact noLoss rev mem hidden
  · obtain ⟨_, _, known, announced⟩ := conforms through
    have found : ret.store.db.lookup key = some d.bytes := by
      rw [hdb]
      exact AList.lookup_insert _
    refine ⟨d, found, ?_⟩
    rw [hrev, hhistory]
    rcases known rev mem hidden with same | member
    · -- The compared revision is one of the ids, and the announced one comes first there.
      have first := announced (by rw [← same]; rfl)
      have listed := compared rev same.symm
      cases ids with
      | nil => cases first
      | cons head rest =>
        rw [List.head?_cons, Option.some.injEq] at first
        exact first ▸ listed
    · exact member

/-- What holds between two moves: the puller writes this key only and the revisions it compared,
and nothing is lost. -/
def Sound (key : CString) (r : Race) : Prop :=
  r.pull.AllCalls (CallFits key) ∧ NoLoss key r

theorem client_sound (sound : Sound key r) {calls : BdbCalls} {c : ApiCalls}
    {base : Option LaRev} {doc : Option LaCodecValue}
    (conforms : PutKeeps host key r calls base doc) :
    Sound key (raceStep host key r (.client calls c base doc)).2 := by
  obtain ⟨fits, noLoss⟩ := sound
  simp only [raceStep]
  cases hret : laDbPut (bdbDb host calls) c r.store (some key) base doc with
  | none => exact ⟨fits, noLoss⟩
  | some ret =>
    obtain ⟨old, new⟩ := put_noLoss noLoss hret conforms
    refine ⟨fits, fun rev mem hidden => ?_⟩
    rcases List.mem_append.mp mem with mem | mem
    · exact new rev mem
    · exact old rev mem hidden

/-- A move of the puller that makes no write leaves the store alone. -/
theorem read_noLoss (noLoss : NoLoss key r) {s : BdbStore} (same : s = r.store)
    (pull : PullProc (Outcome × List UInt8)) (shown : List LaStorageRev) :
    NoLoss key { r with store := s, pull := pull, shown := shown ++ r.shown } := by
  intro rev mem hidden
  have before : rev ∉ r.shown := fun h => hidden (List.mem_append_right shown h)
  have kept := noLoss rev mem before
  rwa [← same] at kept

theorem puller_sound (sound : Sound key r) (resolver : Resolver)
    (conforms : Conforms host key (event (raceStep host key) r (.puller resolver))) :
    Sound key (raceStep host key r (.puller resolver)).2 := by
  obtain ⟨fits, noLoss⟩ := sound
  refine ⟨(advance_allCalls fits r.store).1, ?_⟩
  cases hp : r.pull with
  | done a =>
    simp only [raceStep, hp, advance]
    exact read_noLoss noLoss rfl _ _
  | trap =>
    simp only [raceStep, hp, advance]
    exact read_noLoss noLoss rfl _ _
  | call call k =>
    rw [hp] at fits
    obtain ⟨hput, hreplace⟩ := conforms
    simp only [pendingPut, pendingReplace, event, hp] at hput hreplace
    simp only [raceStep, hp, advance]
    cases call with
    | get calls key' => exact read_noLoss noLoss rfl _ _
    | getAllrevs calls key' => exact read_noLoss noLoss rfl _ _
    | resolve key' mine theirs rev => exact read_noLoss noLoss rfl _ _
    | replace calls c key' thatrev doc ids why =>
      obtain ⟨⟨rfl, compared⟩, _⟩ := fits
      have keeps := hreplace _ rfl
      simp only [servePull]
      cases hret : laDbReplace (bdbDb host calls) c r.store (some key') (some thatrev) (some doc)
          (some ids.tail) (revcount ids.length) with
      | none => exact read_noLoss noLoss rfl _ _
      | some ret =>
        exact fun rev mem hidden => replace_noLoss noLoss hret compared keeps rev mem hidden
    | put calls c key' rev doc =>
      obtain ⟨rfl, _⟩ := fits
      have keeps := hput _ rfl
      simp only [servePull]
      cases hret : laDbPut (bdbDb host calls) c r.store (some key') (some rev) doc with
      | none => exact read_noLoss noLoss rfl _ _
      | some ret => exact fun rev mem hidden => (put_noLoss noLoss hret keeps).1 rev mem hidden

theorem raceStep_sound (move : Move) (sound : Sound key r)
    (conforms : Conforms host key (event (raceStep host key) r move)) :
    Sound key (raceStep host key r move).2 := by
  cases move with
  | client calls c rev doc => exact client_sound sound (conforms.1 _ rfl)
  | puller resolver => exact puller_sound sound resolver conforms

end Step

/-- Whatever the interleaving of one change with other clients' puts: if each write of the run
conforms, no acknowledged revision is lost. -/
theorem acknowledged_kept {host : LaHost} {json : JsonLib} {urlbase key revText : CString}
    {env : ChangeEnv} {change : LaCodecValue} {buffer : List UInt8}
    (named : changeKeyRev change = some (key, revText)) (s : BdbStore) (moves : List Move)
    (conforms : ∀ e ∈ events (raceStep host key)
      ⟨s, handleChange json urlbase env change buffer, [], []⟩ moves, Conforms host key e) :
    NoLoss key (final (raceStep host key)
      ⟨s, handleChange json urlbase env change buffer, [], []⟩ moves) := by
  have start : Sound key ⟨s, handleChange json urlbase env change buffer, [], []⟩ :=
    ⟨handleChange_calls env named json urlbase buffer, fun rev mem => by cases mem⟩
  exact (preserved (Sound key) (fun r move => raceStep_sound move) start conforms).2.2

section Runs
private def oneRev : LaStorageRev :=
  overwrite zeroRev [150, 122, 0, 223, 245, 224, 42, 221, 65, 129, 145, 56, 171, 179, 40, 77]

private def twoRev : LaStorageRev :=
  overwrite zeroRev [112, 81, 203, 229, 200, 250, 236, 208, 133, 163, 250, 97, 158, 110, 99, 55]

/-- MD5 on the images of the empty document, first put and put onto that. -/
private def twoPutsHost : LaHost where
  codec := emptyObjectCodec
  revgen := ⟨fun image => if image.length < 30 then oneRev else twoRev, fun _ => []⟩
  compressor := none

private def raceKey : CString := CString.ofBytes [97]

private def threeRev : LaRev := ⟨3, uniformRev 3⟩

/-- The server announces revision 3 and has it with these revisions. -/
private def threeChange : LaCodecValue :=
  .object [(seqName, .integer 1), (idName, .string raceKey),
    (changesName, .array [.object [(revName, .string (textOfRev threeRev))]])]

private def threeRace (revs : List LaStorageRev) : Race where
  store := bdbEmpty
  pull := handleChange (textsOf [versionOf [] revs]) (CString.ofBytes [117])
    { remote := fun _ => ⟨jsonText (versionOf [] revs), true⟩ } threeChange []
  acked := []
  shown := []

private def putEmpty (rev : Option LaRev) : Move := .client {} {} rev (some (.object []))

/-- Two puts, then the puller takes a version that has both. -/
theorem descendant_keeps_acknowledged :
    NoLoss raceKey (final (raceStep twoPutsHost raceKey)
      (threeRace [threeRev.rev, twoRev, oneRev])
      [putEmpty none, putEmpty (some ⟨1, oneRev⟩), .puller resolveMine, .puller resolveMine,
        .puller resolveMine]) := by
  have named : changeKeyRev threeChange = some (raceKey, textOfRev threeRev) := by
    decide +kernel
  exact acknowledged_kept named bdbEmpty _ (by decide +kernel)

/-- The puller finds the key absent, a put is acknowledged, the puller writes. -/
private def overtaken : Race :=
  final (raceStep twoPutsHost raceKey) (threeRace [threeRev.rev])
    [.puller resolveMine, putEmpty none, .puller resolveMine]

/-- The acknowledged put is overwritten. -/
theorem put_behind_reader_lost : ¬ NoLoss raceKey overtaken := by
  intro noLoss
  have acked : oneRev ∈ overtaken.acked ∧ oneRev ∉ overtaken.shown := by decide +kernel
  have stored : ∀ value ∈ overtaken.store.db.lookup raceKey,
      (partialHeader (fun _ => 0) value).rev = threeRev.rev ∧
        (partialHeader (fun _ => 0) value).revCount.toNat = 0 := by decide +kernel
  obtain ⟨d, found, mem⟩ := noLoss oneRev acked.1 acked.2
  obtain ⟨rev, count⟩ := stored d.bytes found
  rw [partialHeader_docRecord] at rev count
  rw [d.counted, List.length_eq_zero_iff] at count
  rw [rev, count] at mem
  exact absurd mem (by decide)

end Runs

end PullInterleaving
