import Lounge.Api.BdbApi
import Lounge.Pull.PullModel
import Lounge.Storage.RevsOverlap

/-!
# The three-way decision

A version that is behind, ahead or forked is told apart by two comparisons of
revision lists. On chains of one forest they answer rightly, except that a revision
at the very end of the other list is overlooked.
-/

namespace PullDecision
open ObjectStore CodecValue CouchRevgen RevScan LoungeApi BdbDriver BdbRecord BdbApi RevsOverlap
  ParentChains Process PullModel

abbrev PullEvent := Runs.Event BdbStore PullCall Bool

/-- Nothing fails while the change is handled; the writes at its end may. -/
structure Quiet (env : ChangeEnv) : Prop where
  getCalls : env.getCalls.Succeed
  urlBuilt : env.urlBuilt = true
  setup : env.setup = true
  jsonAllocated : env.jsonAllocated = true
  revsAllocated : env.revsAllocated = true
  allrevsCalls : env.allrevsCalls.Succeed
  localAllocated : env.localAllocated = true
  conflictCalls : env.conflictCalls.Succeed

/-- The server answers the request for a version with a document and its revision ids. -/
structure Fetches (json : JsonLib) (urlbase : CString) (env : ChangeEnv) (key revText : CString)
    (buffer : List UInt8) (object : LaCodecValue) (ids : List LaStorageRev) : Prop where
  ok : (env.remote (documentUrl urlbase key revText)).ok = true
  parsed : ∃ raw, (json.loadb (buffer ++
      (env.remote (documentUrl urlbase key revText)).delivered)).bind parseRevisions =
    some (object, raw) ∧ scanIds env.revsJunk 0 raw = some ids

theorem fetchVersion_quiet {json : JsonLib} {urlbase key revText : CString} {env : ChangeEnv}
    {buffer : List UInt8} {object : LaCodecValue} {ids : List LaStorageRev} (quiet : Quiet env)
    (fetches : Fetches json urlbase env key revText buffer object ids) (thatrev : LaRev)
    (mine : Option LaRev) :
    fetchVersion env key json urlbase revText thatrev mine buffer =
      (takeVersion env key mine thatrev object ids).map fun outcome => (outcome, []) := by
  obtain ⟨raw, hparse, hscan⟩ := fetches.parsed
  apply fetchVersion_some
  simp [fetchedVersion, quiet.urlBuilt, quiet.setup, fetches.ok, JsonLib.load, quiet.jsonAllocated,
    hparse, quiet.revsAllocated, hscan]

/-- `la_db_replace` was called with the remote version. -/
def TakesRemote (t : List PullEvent) (key : CString) (thatrev : LaRev) (object : LaCodecValue)
    (ids : List LaStorageRev) : Prop :=
  ∃ e ∈ t, ∃ calls c why, e.input = .replace calls c key thatrev object ids why

def AsksResolver (t : List PullEvent) : Prop :=
  ∃ e ∈ t, ∃ key mine theirs rev, e.input = .resolve key mine theirs rev

def isWrite : PullCall → Bool
  | .replace .. => true
  | .put .. => true
  | _ => false

def Writes (t : List PullEvent) : Prop := ∃ e ∈ t, isWrite e.input = true

/-- The decision the comment above the comparisons asks for, with local revisions `a :: xs`
and remote ones `b :: ys`. -/
structure ThreeWay (t : List PullEvent) (key : CString) (thatrev : LaRev)
    (object : LaCodecValue) (a : LaStorageRev) (xs : List LaStorageRev) (b : LaStorageRev)
    (ys : List LaStorageRev) : Prop where
  behind : TakesRemote t key thatrev object (b :: ys) ∧ ¬ AsksResolver t ↔ a ∈ b :: ys
  ahead : ¬ Writes t ∧ ¬ AsksResolver t ↔ b ∈ a :: xs
  forked : AsksResolver t ↔ a ∉ b :: ys ∧ b ∉ a :: xs

/-- A change to a live document is compared: `a :: xs` is the list `la_pull_run` builds of the
local revisions, `b :: ys` the ids of the remote version. -/
structure Compared (host : LaHost) (f : Forest LaStorageRev) (json : JsonLib) (urlbase : CString)
    (env : ChangeEnv) (change : LaCodecValue) (buffer : List UInt8) (s : BdbStore)
    (key revText : CString) (d : DocRecord) (doc object : LaCodecValue) (a : LaStorageRev)
    (xs : List LaStorageRev) (b : LaStorageRev) (ys : List LaStorageRev) : Prop where
  named : changeKeyRev change = some (key, revText)
  quiet : Quiet env
  live : LiveRecord host s key d doc
  announced : (laRevScan revText env.uninitRev).2.rev ≠ d.header.rev
  fetches : Fetches json urlbase env key revText buffer object (b :: ys)
  built : localRevs env.localAllocated d.header.rev
    (laDbGetAllrevs (bdbDb host env.allrevsCalls) s key) = some (a :: xs)
  localChain : f.Chain (a :: xs)
  remoteChain : f.Chain (b :: ys)
  heads : a ≠ b

section Decision
variable {host : LaHost} {f : Forest LaStorageRev} {json : JsonLib} {urlbase : CString}
  {env : ChangeEnv} {change : LaCodecValue} {buffer : List UInt8} {s : BdbStore}
  {key revText : CString} {d : DocRecord} {doc object : LaCodecValue} {a b : LaStorageRev}
  {xs ys : List LaStorageRev}

/-- The calls that follow the two reads. -/
def decided (host : LaHost) (resolver : Resolver) (env : ChangeEnv) (s : BdbStore) (key : CString)
    (rev thatrev : LaRev) (object : LaCodecValue) (mine ids : List LaStorageRev) :
    List PullEvent :=
  if laStorageRevsOverlap mine ids then
    trace (servePull host resolver) (.call (.replace env.writeCalls env.writeApi key thatrev object
      ids (.behind rev)) fun _ => .done Outcome.replaced) s
  else if !laStorageRevsOverlap ids mine then
    trace (servePull host resolver) (resolveConflict env key rev thatrev object ids) s
  else []

theorem trace_compared (resolver : Resolver)
    (h : Compared host f json urlbase env change buffer s key revText d doc object a xs b ys) :
    trace (servePull host resolver) (handleChange json urlbase env change buffer) s =
      ⟨s, .get env.getCalls key, true, s⟩ :: ⟨s, .getAllrevs env.allrevsCalls key, true, s⟩ ::
        decided host resolver env s key ⟨d.header.docSeq, d.header.rev⟩
          (laRevScan revText env.uninitRev).2 object (a :: xs) (b :: ys) := by
  have hget := h.live.get h.quiet.getCalls.dbGet
  have hne : ¬ d.header.rev = (laRevScan revText env.uninitRev).2.rev :=
    fun same => h.announced same.symm
  rw [handleChange, h.named]
  simp only [trace_get, hget]
  rw [if_neg hne, fetchVersion_quiet h.quiet h.fetches, trace_map, takeVersion, compareRevs,
    trace_getAllrevs, h.built, decided]
  simp only [List.cons.injEq, true_and]
  by_cases behind : laStorageRevsOverlap (a :: xs) (b :: ys) = true
  · rw [if_pos behind, if_pos behind]
  · rw [if_neg behind, if_neg behind]
    by_cases ahead : laStorageRevsOverlap (b :: ys) (a :: xs) = true
    · simp [ahead, trace]
    · simp [ahead]

/-- A single replace of the version takes it, and asks nobody. -/
theorem trace_replace_takes (host : LaHost) (s : BdbStore) (key : CString)
    (object : LaCodecValue) (resolver : Resolver) (calls : BdbCalls) (c : ApiCalls)
    (thatrev : LaRev) (ids : List LaStorageRev) (why : WriteReason) {α : Type} (o : α) :
    ∃ e, trace (servePull host resolver)
        (.call (.replace calls c key thatrev object ids why) fun _ => .done o) s = [e] ∧
      e.input = .replace calls c key thatrev object ids why := by
  simp only [trace]
  cases servePull host resolver (.replace calls c key thatrev object ids why) s with
  | none => exact ⟨_, rfl, rfl⟩
  | some reply => exact ⟨_, rfl, rfl⟩

theorem resolveConflict_asks (resolver : Resolver) (quiet : Quiet env)
    (live : LiveRecord host s key d doc) (rev thatrev : LaRev) (ids : List LaStorageRev) :
    AsksResolver
      (trace (servePull host resolver) (resolveConflict env key rev thatrev object ids) s) := by
  rw [resolveConflict, trace_get, live.get quiet.conflictCalls.dbGet, trace_resolve]
  exact ⟨_, List.mem_cons_of_mem _ List.mem_cons_self, key, doc, object, _, rfl⟩

/-- The reads before the decision neither write nor ask. -/
theorem asks_after_reads (key : CString) (object : LaCodecValue) (t : List PullEvent)
    (e₁ e₂ : PullEvent) {calls calls' : BdbCalls}
    (h₁ : e₁.input = .get calls key) (h₂ : e₂.input = .getAllrevs calls' key) :
    (AsksResolver (e₁ :: e₂ :: t) ↔ AsksResolver t) ∧ (Writes (e₁ :: e₂ :: t) ↔ Writes t) ∧
      ∀ thatrev ids, TakesRemote (e₁ :: e₂ :: t) key thatrev object ids ↔
        TakesRemote t key thatrev object ids := by
  simp [AsksResolver, Writes, TakesRemote, h₁, h₂, isWrite]

/-- The calls of the three branches, told apart by the two comparisons. -/
theorem decided_cases (object : LaCodecValue) (resolver : Resolver) (quiet : Quiet env)
    (live : LiveRecord host s key d doc) (rev thatrev : LaRev) (mine ids : List LaStorageRev) :
    let t := decided host resolver env s key rev thatrev object mine ids
    (laStorageRevsOverlap mine ids = true ∧
      TakesRemote t key thatrev object ids ∧ Writes t ∧ ¬ AsksResolver t) ∨
    (laStorageRevsOverlap mine ids = false ∧ laStorageRevsOverlap ids mine = true ∧ t = []) ∨
    (laStorageRevsOverlap mine ids = false ∧ laStorageRevsOverlap ids mine = false ∧
      AsksResolver t) := by
  cases behind : laStorageRevsOverlap mine ids with
  | true =>
    left
    obtain ⟨e, ht, he⟩ := trace_replace_takes host s key object resolver env.writeCalls env.writeApi
      thatrev ids (.behind rev) Outcome.replaced
    simp only [decided, behind, if_true, ht]
    refine ⟨trivial, ⟨e, List.mem_singleton_self e, _, _, _, he⟩,
      ⟨e, List.mem_singleton_self e, by rw [he]; rfl⟩, ?_⟩
    rintro ⟨e', he', _, _, _, _, asked⟩
    rw [List.mem_singleton.mp he', he] at asked
    cases asked
  | false =>
    right
    cases ahead : laStorageRevsOverlap ids mine with
    | true => simp [decided, behind, ahead]
    | false =>
      right
      simpa [decided, behind, ahead] using resolveConflict_asks resolver quiet live rev thatrev ids

/-- The loop takes the three-way decision exactly if neither head is the last entry of the
other list. -/
theorem three_way_iff (resolver : Resolver)
    (h : Compared host f json urlbase env change buffer s key revText d doc object a xs b ys) :
    ThreeWay (trace (servePull host resolver) (handleChange json urlbase env change buffer) s) key
        (laRevScan revText env.uninitRev).2 object a xs b ys ↔
      a ≠ (b :: ys).getLast (List.cons_ne_nil b ys) ∧
        b ≠ (a :: xs).getLast (List.cons_ne_nil a xs) := by
  have hbehind := overlap_chains h.localChain h.remoteChain
  have hahead := overlap_chains h.remoteChain h.localChain
  rw [mem_dropLast_iff h.remoteChain.nodup (List.cons_ne_nil b ys)] at hbehind
  rw [mem_dropLast_iff h.localChain.nodup (List.cons_ne_nil a xs)] at hahead
  have apart := h.localChain.not_both h.heads h.remoteChain
  rw [trace_compared resolver h]
  generalize hrest : decided host resolver env s key _ _ object (a :: xs) (b :: ys) = t
  have cases := decided_cases object resolver h.quiet h.live
    ⟨d.header.docSeq, d.header.rev⟩ (laRevScan revText env.uninitRev).2 (a :: xs) (b :: ys)
  rw [hrest] at cases
  obtain ⟨asks, writes, takes⟩ := asks_after_reads key object t
    ⟨s, .get env.getCalls key, true, s⟩ ⟨s, .getAllrevs env.allrevsCalls key, true, s⟩ rfl rfl
  have decision : ThreeWay (⟨s, .get env.getCalls key, true, s⟩ ::
      ⟨s, .getAllrevs env.allrevsCalls key, true, s⟩ :: t) key
        (laRevScan revText env.uninitRev).2 object a xs b ys ↔
      (TakesRemote t key (laRevScan revText env.uninitRev).2 object (b :: ys) ∧
          ¬ AsksResolver t ↔ a ∈ b :: ys) ∧
        (¬ Writes t ∧ ¬ AsksResolver t ↔ b ∈ a :: xs) ∧
        (AsksResolver t ↔ a ∉ b :: ys ∧ b ∉ a :: xs) := by
    rw [← asks, ← writes, ← takes]
    exact ⟨fun w => ⟨w.behind, w.ahead, w.forked⟩, fun ⟨x, y, z⟩ => ⟨x, y, z⟩⟩
  rw [decision]
  have lastIds := List.getLast_mem (List.cons_ne_nil b ys)
  have lastMine := List.getLast_mem (List.cons_ne_nil a xs)
  rcases cases with ⟨mine, took, wrote, silent⟩ | ⟨mine, theirs, rfl⟩ | ⟨mine, theirs, asked⟩
  · obtain ⟨known, inside⟩ := hbehind.mp mine
    have unknown : b ∉ a :: xs := apart known
    have notLast : b ≠ (a :: xs).getLast (List.cons_ne_nil a xs) := fun same =>
      unknown (same ▸ lastMine)
    simp [took, wrote, silent, known, unknown, inside, notLast]
  · obtain ⟨known, inside⟩ := hahead.mp theirs
    have unknown : a ∉ b :: ys := fun mem => apart mem known
    have notLast : a ≠ (b :: ys).getLast (List.cons_ne_nil b ys) := fun same =>
      unknown (same ▸ lastIds)
    simp [TakesRemote, Writes, AsksResolver, known, unknown, inside, notLast]
  · -- The resolver is asked: rightly so unless a head was overlooked at the end of a list.
    have mineOnly : a ∈ b :: ys → a = (b :: ys).getLast (List.cons_ne_nil b ys) := by
      intro mem
      by_contra inside
      simp [hbehind.mpr ⟨mem, inside⟩] at mine
    have theirsOnly : b ∈ a :: xs → b = (a :: xs).getLast (List.cons_ne_nil a xs) := by
      intro mem
      by_contra inside
      simp [hahead.mpr ⟨mem, inside⟩] at theirs
    constructor
    · rintro ⟨behind, ahead, _⟩
      refine ⟨fun same => ?_, fun same => ?_⟩
      · exact (behind.mpr (same ▸ lastIds)).2 asked
      · exact (ahead.mpr (same ▸ lastMine)).2 asked
    · rintro ⟨notLastIds, notLastMine⟩
      have fork : a ∉ b :: ys ∧ b ∉ a :: xs :=
        ⟨fun mem => notLastIds (mineOnly mem), fun mem => notLastMine (theirsOnly mem)⟩
      simp only [asked, not_true, and_false, false_iff, true_iff]
      exact ⟨fork.1, fork.2, fork⟩

end Decision

section Runs
/-- Revision 2 has the parent 1, which has the parent 0. -/
private def lineage : Forest LaStorageRev :=
  Forest.ofRank
    (fun r => if r = uniformRev 2 then some (uniformRev 1)
      else if r = uniformRev 1 then some (uniformRev 0) else none)
    (fun r => (r.rev.headD 0).toNat) (by
      intro x y h
      split at h
      · rename_i two
        obtain rfl := Option.some.inj h
        subst two
        decide
      · split at h
        · rename_i one
          obtain rfl := Option.some.inj h
          subst one
          decide
        · cases h)

private def emptyHost : LaHost := ⟨emptyObjectCodec, ⟨fun _ => zeroRev, fun _ => []⟩, none⟩

/-- The empty document under revision 1, without history. -/
private def plainRecord : DocRecord where
  header := ⟨1, 1, false, 0, uniformRev 1⟩
  history := []
  body := [123, 125]
  counted := rfl
  fits := by decide

private def plainStore : BdbStore := ⟨AList.insert (CString.ofBytes [97]) plainRecord.bytes ∅, 2⟩

private def newRev : LaRev := ⟨2, uniformRev 2⟩

private def newChange : LaCodecValue :=
  .object [(seqName, .integer 1), (idName, .string (CString.ofBytes [97])),
    (changesName, .array [.object [(revName, .string (textOfRev newRev))]])]

/-- The server has revision 2 of the document, with the revisions behind it in `ys`. -/
private def newEnv (ys : List LaStorageRev) : ChangeEnv where
  remote := fun _ => ⟨jsonText (versionOf [] (uniformRev 2 :: ys)), true⟩

private theorem newVersion_compared (ys : List LaStorageRev)
    (chain : lineage.Chain (uniformRev 2 :: ys)) :
    Compared emptyHost lineage (textsOf [versionOf [] (uniformRev 2 :: ys)])
      (CString.ofBytes [117]) (newEnv ys) newChange [] plainStore (CString.ofBytes [97])
      (textOfRev newRev) plainRecord (.object []) (.object []) (uniformRev 1) [] (uniformRev 2)
      ys where
  named := by decide +kernel
  quiet := by constructor <;> first | rfl | (constructor <;> rfl)
  live := ⟨by decide +kernel, rfl, rfl, rfl⟩
  announced := by
    rw [laRevScan_textOfRev]
    decide
  fetches := by
    refine ⟨rfl, _, ?_, scanIds_hexText _ _ _⟩
    rw [List.nil_append]
    exact (congrArg (Option.bind · parseRevisions) (textsOf_loadb _ [])).trans
      (parseRevisions_versionOf [] _ (by simp))
  built := by
    have alone : localRevs true (uniformRev 1)
        (laDbGetAllrevs (bdbDb emptyHost {}) plainStore (CString.ofBytes [97])) =
      some [uniformRev 1] := by decide +kernel
    exact alone
  localChain := List.isChain_singleton _
  remoteChain := chain
  heads := by decide

/-- Revision 1 is here, revision 2 there, and the server still knows the parent of 1. -/
theorem three_way_fast_forward :
    ThreeWay (trace (servePull emptyHost resolveMine)
        (handleChange (textsOf [versionOf [] [uniformRev 2, uniformRev 1, uniformRev 0]])
          (CString.ofBytes [117]) (newEnv [uniformRev 1, uniformRev 0]) newChange []) plainStore)
      (CString.ofBytes [97]) (laRevScan (textOfRev newRev) ⟨0, zeroRev⟩).2 (.object [])
      (uniformRev 1) [] (uniformRev 2) [uniformRev 1, uniformRev 0] :=
  (three_way_iff resolveMine (newVersion_compared [uniformRev 1, uniformRev 0]
    (by simp [Forest.Chain, lineage, Forest.ofRank]; decide))).mpr ⟨by decide, by decide⟩

/-- Where the server has nothing behind revision 1, the same update is taken for a fork. -/
theorem short_history_not_three_way :
    Compared emptyHost lineage (textsOf [versionOf [] [uniformRev 2, uniformRev 1]])
      (CString.ofBytes [117]) (newEnv [uniformRev 1]) newChange [] plainStore
      (CString.ofBytes [97]) (textOfRev newRev) plainRecord (.object []) (.object [])
      (uniformRev 1) [] (uniformRev 2) [uniformRev 1] ∧
    ¬ ThreeWay (trace (servePull emptyHost resolveMine)
        (handleChange (textsOf [versionOf [] [uniformRev 2, uniformRev 1]])
          (CString.ofBytes [117]) (newEnv [uniformRev 1]) newChange []) plainStore)
      (CString.ofBytes [97]) (laRevScan (textOfRev newRev) ⟨0, zeroRev⟩).2 (.object [])
      (uniformRev 1) [] (uniformRev 2) [uniformRev 1] := by
  refine ⟨newVersion_compared [uniformRev 1] (by simp [Forest.Chain, lineage, Forest.ofRank]), ?_⟩
  intro decision
  have asked : (trace (servePull emptyHost resolveMine)
      (handleChange (textsOf [versionOf [] [uniformRev 2, uniformRev 1]])
        (CString.ofBytes [117]) (newEnv [uniformRev 1]) newChange []) plainStore).any
      (fun e => match e.input with | .resolve .. => true | _ => false) = true := by
    decide +kernel
  obtain ⟨e, he, resolves⟩ := List.any_eq_true.mp asked
  refine (decision.behind.mpr (by simp)).2 ⟨e, he, ?_⟩
  split at resolves
  · exact ⟨_, _, _, _, by assumption⟩
  · cases resolves

end Runs

end PullDecision
