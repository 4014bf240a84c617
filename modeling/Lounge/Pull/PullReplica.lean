import Lounge.Pull.PullFollows

/-!
# Replicas

What a database shows that only the puller writes to. With
`la_pull_conflict_resolver_theirs` it is a replica of the server. With the default
resolver it is one but for the documents that were pulled in their first revision:
the comparison of revisions overlooks the last one of a list, so every later version
of these passes for a conflict, and the first one stays.
-/

namespace PullReplica
open ObjectStore CodecValue CouchRevgen RevScan LoungeApi ApiWrites BdbDriver RevsOverlap Process
  PullModel PullTwice PullDecision PullDelivers Follower PullFollows

/-- The version of a key that the server had when it was last heard. -/
def lastHeard (nows : List Remote) (key : CString) : Option Version :=
  (nows.map fun now => now key).getLast?.join

section Theirs

/-- A document that changes gets a new revision. -/
def Advances (h v : Version) : Prop := v = h ∨ v.rev.rev ∉ h.ids

theorem hear_theirs {key : CString} {h v : Version} (advances : Advances h v) :
    hear (takes resolveTheirs key) (some h) (some v) = some v := by
  rcases advances with rfl | fresh
  · exact hear_self _
  · apply hear_taken
    have differs : h.rev.rev ≠ v.rev.rev := by
      intro same
      exact fresh (by simp [Version.ids, same])
    have notAhead : laStorageRevsOverlap v.ids h.ids = false := by
      by_contra overlap
      have inside := head_mem_of_overlap (Bool.eq_true_of_not_eq_false overlap)
      exact fresh (List.dropLast_subset _ inside)
    simp [takes, differs, notAhead, resolveTheirs]

theorem resolveTheirs_neverMerges : NeverMerges resolveTheirs := by
  intro key mine theirs merged same
  cases same

/-- With `la_pull_conflict_resolver_theirs` the database is a replica of the server as it was last
heard. -/
theorem theirs_replicates {host : LaHost} {json : JsonLib} {p : Puller} {envs : List RunEnv}
    {nows : List Remote}
    (served : Served Advances host json p.urlbase (fun _ => none) envs nows) :
    ∃ p' s', pullRounds host resolveTheirs json p bdbEmpty envs = some (p', s') ∧
      ∀ key, Answers host s' key (lastHeard nows key) := by
  have start : Shows host bdbEmpty fun _ => none := fun key => rfl
  obtain ⟨p', s', ran, shows⟩ := rounds_follow resolveTheirs_neverMerges served
    (fun key => rfl) start
  refine ⟨p', s', ran, fun key => ?_⟩
  have taken : List.IsChain (fun a b => hear (takes resolveTheirs key) a b = b)
      (none :: nows.map fun now => now key) := by
    have chain : List.IsChain (fun a b => hear (takes resolveTheirs key) a b = b)
        (((fun _ => none) :: nows).map fun now : Remote => now key) := by
      refine (List.isChain_map _).mpr (served.isChain.imp fun a b goes => ?_)
      cases before : a key with
      | none => exact none_hear _
      | some h =>
        obtain ⟨v, there, advances⟩ := goes key h before
        rw [there]
        exact hear_theirs advances
    exact chain
  rw [lastHeard, ← after_last taken]
  exact (shows key).answers

end Theirs

section Mine

/-- A document that changes gets new revisions before the ones it has. -/
def Extends (h v : Version) : Prop :=
  v = h ∨ ∃ newer, newer ≠ [] ∧ v.ids = newer ++ h.ids ∧ v.ids.Nodup

theorem Extends.trans {u v w : Version} (first : Extends u v) (second : Extends v w) :
    Extends u w := by
  rcases second with rfl | ⟨newest, some, ids, distinct⟩
  · exact first
  · right
    rcases first with rfl | ⟨newer, -, older, -⟩
    · exact ⟨newest, some, ids, distinct⟩
    · refine ⟨newest ++ newer, by simp [some], ?_, distinct⟩
      rw [ids, older, List.append_assoc]

/-- A document that is there is not lost. -/
def Grows (a b : Option Version) : Prop := ∀ h ∈ a, ∃ v ∈ b, Extends h v

instance : Trans Grows Grows Grows where
  trans := by
    intro a b c first second h mem
    obtain ⟨v, there, longer⟩ := first h mem
    obtain ⟨w, there', longest⟩ := second v there
    exact ⟨w, there', longer.trans longest⟩

/-- A live version with nothing behind it. -/
def stays (v : Version) : Bool := !isDeleted v.doc && v.older.isEmpty

/-- The list of the version that is held stands at the end of the other one. -/
theorem overlap_extends (newer : List LaStorageRev) {mine : List LaStorageRev}
    (long : 2 ≤ mine.length) : laStorageRevsOverlap mine (newer ++ mine) = true := by
  refine (overlap_iff _ _).mpr ⟨newer.length, ?_, ?_⟩
  · rw [List.length_append]
    omega
  · simp

/-- It is overlooked if it is a single revision. -/
theorem overlap_single {newer : List LaStorageRev} {a : LaStorageRev} (fresh : a ∉ newer) :
    laStorageRevsOverlap [a] (newer ++ [a]) = false := by
  by_contra overlap
  have inside := head_mem_of_overlap (Bool.eq_true_of_not_eq_false overlap)
  rw [List.dropLast_concat] at inside
  exact fresh inside

theorem takes_mine {key : CString} {h v : Version} (ext : Extends h v) (changed : v ≠ h) :
    stays v = false ∧ takes resolveMine key h v = !stays h := by
  obtain ⟨newer, some, ids, distinct⟩ := ext.resolve_left changed
  have apart : ∀ r ∈ newer, r ∉ h.ids := by
    rw [ids] at distinct
    exact fun r mem again => (List.nodup_append.mp distinct).2.2 r mem r again rfl
  obtain ⟨b, rest, rfl⟩ := List.exists_cons_of_ne_nil some
  obtain ⟨head, behind⟩ := List.cons.inj ids
  have fresh : v.rev.rev ∉ h.ids := by
    rw [head]
    exact apart b List.mem_cons_self
  constructor
  · simp [stays, behind, Version.ids]
  cases deleted : isDeleted h.doc with
  | true => simp [takes, stays, deleted]
  | false =>
    have differs : h.rev.rev ≠ v.rev.rev := by
      intro same
      exact fresh (by simp [Version.ids, same])
    have notAhead : laStorageRevsOverlap v.ids h.ids = false := by
      by_contra overlap
      have inside := head_mem_of_overlap (Bool.eq_true_of_not_eq_false overlap)
      exact fresh (List.dropLast_subset _ inside)
    cases older : h.older with
    | nil =>
      have single : laStorageRevsOverlap h.ids v.ids = false := by
        rw [ids, Version.ids, older]
        refine overlap_single fun mem => apart _ mem ?_
        simp [Version.ids]
      simp [takes, stays, deleted, differs, single, notAhead, resolveMine, older]
    | cons first others =>
      have whole : laStorageRevsOverlap h.ids v.ids = true := by
        rw [ids]
        exact overlap_extends _ (by simp [Version.ids, older])
      simp [takes, stays, deleted, differs, whole, older]

theorem resolveMine_neverMerges : NeverMerges resolveMine := by
  intro key mine theirs merged same
  cases same

/-- What the default resolver makes of the server's versions of a key: a first one that stays, or
else the last one. -/
def keptByDefault (nows : List Remote) (key : CString) : Option Version :=
  firstOrLast stays (nows.map fun now => now key)

/-- With the default resolver a document that was pulled live in its first revision is never
updated nor deleted again. All other ones follow the server. -/
theorem mine_replicates {host : LaHost} {json : JsonLib} {p : Puller} {envs : List RunEnv}
    {nows : List Remote}
    (served : Served Extends host json p.urlbase (fun _ => none) envs nows) :
    ∃ p' s', pullRounds host resolveMine json p bdbEmpty envs = some (p', s') ∧
      ∀ key, Answers host s' key (keptByDefault nows key) := by
  have start : Shows host bdbEmpty fun _ => none := fun key => rfl
  obtain ⟨p', s', ran, shows⟩ := rounds_follow resolveMine_neverMerges served
    (fun key => rfl) start
  refine ⟨p', s', ran, fun key => ?_⟩
  have grows : (nows.map fun now => now key).Pairwise Grows := by
    have chain : List.IsChain Grows (nows.map fun now : Remote => now key) :=
      (List.isChain_map _).mpr (served.isChain.tail.imp fun a b goes => goes key)
    exact chain.pairwise
  have later : (nows.map fun now => now key).Pairwise fun a b =>
      ∀ h ∈ a, ∃ v ∈ b, v = h ∨ stays v = false ∧ takes resolveMine key h v = !stays h := by
    refine grows.imp fun goes h mem => ?_
    obtain ⟨v, there, longer⟩ := goes h mem
    refine ⟨v, there, ?_⟩
    by_cases same : v = h
    · exact Or.inl same
    · exact Or.inr (takes_mine longer same)
  rw [keptByDefault, ← after_first later]
  exact (shows key).answers

end Mine

section Runs
private def replicaHost : LaHost := ⟨emptyObjectCodec, ⟨fun _ => zeroRev, fun _ => []⟩, none⟩

private def replicaKey : CString := CString.ofBytes [97]

/-- The server with one empty document, which has this version. -/
private def onlyDocument (v : Version) : Remote :=
  fun key => if key = replicaKey then some v else none

private def announcement (v : Version) : LaCodecValue :=
  changesFeed (.integer 1) [(replicaKey, v.rev)]

private def servesVersion (v : Version) : RunEnv where
  feed := fun _ => (⟨jsonText (announcement v), true⟩, 200)
  changes := fun _ => { remote := fun _ => ⟨jsonText (versionOf [] v.ids), true⟩ }

private def firstVersion : Version := ⟨⟨1, uniformRev 1⟩, [], .object []⟩

private def secondVersion : Version := ⟨⟨2, uniformRev 2⟩, [uniformRev 1], .object []⟩

private def bothTexts : JsonLib :=
  textsOf [announcement firstVersion, announcement secondVersion, versionOf [] firstVersion.ids,
    versionOf [] secondVersion.ids]

private theorem version_received {json : JsonLib} {v : Version} {before : Remote}
    (feed : json.loadb (jsonText (announcement v)) = some (announcement v))
    (version : json.loadb (jsonText (versionOf [] v.ids)) = some (versionOf [] v.ids))
    (empty : v.doc = .object []) (few : v.older.length ≤ laObjectMaxRevisionCount)
    (others : ∀ key, key ≠ replicaKey → before key = none) (urlbase : CString) :
    Receives replicaHost json urlbase (servesVersion v) before (onlyDocument v) := by
  obtain ⟨change, results, named⟩ : ∃ change,
      (announcement v).laCodecObjectGet resultsName = some (.array [change]) ∧
      changeKeyRev change = some (replicaKey, textOfRev v.rev) := ⟨_, rfl, rfl⟩
  have fetches : Fetches json urlbase ((servesVersion v).changes 0) replicaKey (textOfRev v.rev) []
      v.doc v.ids := by
    refine ⟨rfl, _, ?_, scanIds_hexText _ _ _⟩
    rw [empty]
    exact (congrArg (Option.bind · parseRevisions) version).trans
      (parseRevisions_versionOf [] v.ids (by simp))
  have stores : Stores replicaHost {} {} v.doc v.ids := by
    rw [empty]
    refine ⟨rfl, rfl, rfl, ⟨rfl, rfl, rfl⟩, rfl, ?_⟩
    rintro data ⟨⟩
    rw [laObjectMaxRevisionCount] at few
    simp only [headerSize, Version.ids, List.length_cons, List.length_nil]
    omega
  refine ⟨rfl, rfl, rfl, rfl, rfl, rfl, fun url => ⟨rfl, rfl, announcement v, [change], feed,
    results, ⟨⟨replicaKey, v, if_pos rfl, ?_⟩, trivial⟩, fun key unnamed => ?_⟩⟩
  · refine ⟨⟨_, named, by rw [laRevScan_textOfRev], fetches⟩, ?_, stores,
      emptyObjectCodec_roundTrips _ _, rfl, few⟩
    exact ⟨BdbCalls.succeed_default, rfl, rfl, rfl, rfl, BdbCalls.succeed_default, rfl,
      BdbCalls.succeed_default⟩
  · have other : key ≠ replicaKey := by
      rintro rfl
      exact unnamed (by simp [newsOf, named])
    rw [onlyDocument, if_neg other, others key other]

/-- The server's answers in two runs: the document is new in the first one, and has been edited
in the second. -/
private theorem both_served {next : Version → Version → Prop}
    (edited : next firstVersion secondVersion) (urlbase : CString) :
    Served next replicaHost bothTexts urlbase (fun _ => none)
      [servesVersion firstVersion, servesVersion secondVersion]
      [onlyDocument firstVersion, onlyDocument secondVersion] := by
  have apart : [(announcement firstVersion, announcement secondVersion),
      (announcement firstVersion, versionOf [] firstVersion.ids),
      (announcement firstVersion, versionOf [] secondVersion.ids),
      (announcement secondVersion, versionOf [] firstVersion.ids),
      (announcement secondVersion, versionOf [] secondVersion.ids),
      (versionOf [] firstVersion.ids, versionOf [] secondVersion.ids)].all
        (fun texts => jsonText texts.1 != jsonText texts.2) = true := by
    decide +kernel
  simp only [List.all_cons, List.all_nil, Bool.and_true, Bool.and_eq_true, bne_iff_ne] at apart
  obtain ⟨feeds, first, second, third, fourth, versions⟩ := apart
  refine .received (version_received ?_ ?_ rfl (by decide) (fun _ _ => rfl) urlbase)
    (fun key h mem => by cases mem)
    (.received (version_received ?_ ?_ rfl (by decide) (fun key other => if_neg other) urlbase) ?_
      (.start _))
  · simp [bothTexts, textsOf]
  · simp [bothTexts, textsOf, first, third]
  · simp [bothTexts, textsOf, feeds]
  · simp [bothTexts, textsOf, second, fourth, versions]
  · intro key h mem
    by_cases here : key = replicaKey
    · rw [onlyDocument, if_pos here] at mem
      cases mem
      exact ⟨secondVersion, if_pos here, edited⟩
    · rw [onlyDocument, if_neg here] at mem
      cases mem

private def replicaPuller : Puller :=
  ⟨CString.ofBytes [117], CString.ofBytes [117], 63, none, false⟩

theorem theirs_replicates_edit :
    ∃ p' s', pullRounds replicaHost resolveTheirs bothTexts replicaPuller bdbEmpty
        [servesVersion firstVersion, servesVersion secondVersion] = some (p', s') ∧
      ∀ key, Answers replicaHost s' key
        (lastHeard [onlyDocument firstVersion, onlyDocument secondVersion] key) :=
  theirs_replicates (both_served (Or.inr (by decide)) replicaPuller.urlbase)

/-- The default resolver keeps the first version. -/
theorem mine_replicates_edit :
    ∃ p' s', pullRounds replicaHost resolveMine bothTexts replicaPuller bdbEmpty
        [servesVersion firstVersion, servesVersion secondVersion] = some (p', s') ∧
      (∀ key, Answers replicaHost s' key
        (keptByDefault [onlyDocument firstVersion, onlyDocument secondVersion] key)) ∧
      keptByDefault [onlyDocument firstVersion, onlyDocument secondVersion] replicaKey =
        some firstVersion := by
  have extended : Extends firstVersion secondVersion :=
    Or.inr ⟨[uniformRev 2], by decide, rfl, by decide⟩
  obtain ⟨p', s', ran, answers⟩ := mine_replicates (p := replicaPuller)
    (both_served extended replicaPuller.urlbase)
  exact ⟨p', s', ran, answers, rfl⟩

end Runs

end PullReplica
