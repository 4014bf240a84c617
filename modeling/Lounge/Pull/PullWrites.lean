import Lounge.Api.BdbApi
import Lounge.Pull.PullModel

/-!
# What a version leaves behind

The record after `la_db_replace` was called with a remote version and its revisions.
-/

namespace PullWrites
open ObjectStore CodecValue CouchRevgen LoungeApi ApiWrites BdbDriver BdbRecord BdbPut BdbApi
  PullModel

/-- For an empty list of revisions, `revslen - 1` revisions are too many to copy. -/
theorem createObject_negative (allocated : Bool) (heap : FlatMemory.Memory) (key : CString)
    (rev : LaStorageRev) (data : List UInt8) (length : UInt32) (history : List LaStorageRev)
    (o : LaStorageObject) :
    laStorageCreateObject allocated heap key rev data length (some history) (revcount 0) ≠
      some (some o) := by
  simp only [laStorageCreateObject]
  split
  · simp
  · simp [revcount, maxCopy]

/-- An object with a history is made if there is memory for it and its copy ends. -/
theorem createObject_some_iff {allocated : Bool} {heap : FlatMemory.Memory} {key : CString}
    {rev : LaStorageRev} {data : List UInt8} {length : UInt32} {history : List LaStorageRev}
    {n : Nat} :
    (∃ o, laStorageCreateObject allocated heap key rev data length (some history) n =
      some (some o)) ↔ allocated = true ∧ n * 16 % 2 ^ 64 < maxCopy := by
  simp only [laStorageCreateObject]
  cases allocated with
  | false => simp
  | true =>
    by_cases long : maxCopy ≤ n * 16 % 2 ^ 64
    · simp only [if_pos long, Nat.not_lt.mpr long]
      simp
    · simp only [long, Nat.lt_of_not_le long, Bool.not_true, Bool.false_eq_true, if_false,
        Option.some.injEq, exists_eq', and_self]

/-- What a replace with a version needs to go through: an object that can be encoded, memory, ids
to copy the history from, and the calls to the database. -/
structure Replaces (host : LaHost) (calls : BdbCalls) (c : ApiCalls) (doc : LaCodecValue)
    (ids : List LaStorageRev) : Prop where
  object : doc.laCodecIsObject = true
  encodes : (host.encode (replaceDoc doc)).isSome = true
  allocated : c.buffer = true ∧ c.copied = true ∧ c.created = true
  history : revcount ids.length * 16 % 2 ^ 64 < maxCopy
  through : WritesThrough calls

section Replace
variable {host : LaHost} {calls : BdbCalls} {c : ApiCalls} {s : BdbStore} {key : CString}
  {rev : LaRev} {doc : LaCodecValue} {ids : List LaStorageRev}

theorem Replaces.returns (replaces : Replaces host calls c doc ids) (s : BdbStore)
    (key : CString) (rev : LaRev) :
    ∃ ret, laDbReplace (bdbDb host calls) c s (some key) (some rev) (some doc) (some ids.tail)
      (revcount ids.length) = some ret ∧ ret.result = .ok := by
  obtain ⟨object, encodes, ⟨buffer, copied, created⟩, history, through⟩ := replaces
  obtain ⟨data, encoded⟩ := Option.isSome_iff_exists.mp encodes
  obtain ⟨o, made⟩ : ∃ o, laStorageCreateObject c.created c.heap key rev.rev data
      (UInt32.ofNat data.length) (some ids.tail) (revcount ids.length) = some (some o) :=
    createObject_some_iff.mpr ⟨created, history⟩
  have returned : (laDbReplace (bdbDb host calls) c s (some key) (some rev) (some doc)
      (some ids.tail) (revcount ids.length)).isSome = true := by
    simp only [laDbReplace, bdbDb, object, buffer, copied, encoded, made, Option.join_some,
      Bool.not_true, Bool.or_self, Bool.false_eq_true, if_false, bdbDriver, Option.map_some,
      Option.isSome_some]
  obtain ⟨ret, returned⟩ := Option.isSome_iff_exists.mp returned
  exact ⟨ret, returned, laDbReplace_ok returned through object buffer copied encodes⟩

/-- A replace that returns OK and is committed missed nothing of this. -/
theorem replaces_of_ok {ret : LaDbPutReturn BdbStore}
    (returned : laDbReplace (bdbDb host calls) c s (some key) (some rev) (some doc)
      (some ids.tail) (revcount ids.length) = some ret)
    (ok : ret.result = .ok) (commit : calls.txnCommit = true) :
    Replaces host calls c doc ids := by
  have ready : c.buffer = true ∧ c.copied = true := by
    by_contra short
    have short : (!c.buffer || !c.copied) = true := by
      cases hb : c.buffer <;> cases hc : c.copied <;> simp [hb, hc] at short ⊢
    simp only [laDbReplace, if_pos short] at returned
    split at returned <;> cases returned <;> cases ok
  rcases laDbReplace_cases returned with ⟨-, failed⟩ |
    ⟨k, v, d, data, o, r, s', o', hk, hv, hd, object, encoded, created, replaced, rfl⟩
  · exact absurd ok failed
  cases hd
  obtain ⟨allocated, history⟩ := createObject_some_iff.mp ⟨o, created⟩
  refine ⟨object, Option.isSome_iff_exists.mpr ⟨data, encoded⟩, ⟨ready.1, ready.2, allocated⟩,
    history, ?_⟩
  obtain ⟨rfl, -⟩ := Prod.mk.inj (Option.some.inj replaced)
  have success :
      (bdbLaStorageReplace calls s (markReplaced o (isDeleted doc) v.seq)).result = .success := by
    by_contra refused
    simp [refused] at ok
  exact writesThrough_of_success success commit

end Replace

/-- The version becomes the record: its announced revision, and behind it the ids but the
first. -/
theorem replace_version {host : LaHost} {calls : BdbCalls} {c : ApiCalls} {s : BdbStore}
    {key : CString} {rev : LaRev} {doc : LaCodecValue} {ids : List LaStorageRev}
    {ret : LaDbPutReturn BdbStore}
    (h : laDbReplace (bdbDb host calls) c s (some key) (some rev) (some doc) (some ids.tail)
      (revcount ids.length) = some ret)
    (fits : WritesThrough calls → ids.length ≤ 2 ^ 15 ∧
      ∀ data ∈ host.encode (replaceDoc doc),
        headerSize + 16 * ids.length + data.length < 2 ^ 32) :
    (ret.store = s ∧ (WritesThrough calls → ret.result ≠ .ok)) ∨
    ∃ d : DocRecord, WritesThrough calls ∧ ret.store.db = s.db.insert key d.bytes ∧
      d.header.rev = rev.rev ∧ d.header.deleted = isDeleted doc ∧ d.history = ids.tail ∧
      host.encode (replaceDoc doc) = some d.body := by
  cases ids with
  | nil =>
    rcases laDbReplace_bdb h with unstored | ⟨data, o, _, _, created, _⟩
    · exact Or.inl unstored
    · exact absurd created (createObject_negative _ _ _ _ _ _ _ o)
  | cons first rest =>
    have count : revcount (first :: rest).length = rest.length := by simp [revcount]
    rw [count] at h
    refine laDbReplace_record h fun through => ?_
    obtain ⟨few, small⟩ := fits through
    simp only [List.length_cons, List.tail_cons] at few small ⊢
    refine ⟨by omega, fun data encoded => ?_⟩
    have := small data encoded
    omega

end PullWrites
