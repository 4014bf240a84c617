import Lounge.Api.ApiMap
import Lounge.Api.BdbApi

/-!
# What a replace leaves to read

A replace writes the whole record: the revision it is given, the history, the stripped
document. `get_all_revs` and `la_db_get` return just these.
-/

namespace ReplaceReads
open FlatMemory ObjectStore CodecValue CouchRevgen LoungeApi ApiWrites BdbDriver BdbRecord BdbPut
  BdbApi

section Replace
variable {host : LaHost} {calls : BdbCalls} {c : ApiCalls} {s : BdbStore} {key : CString}
  {rev : LaRev} {doc : LaCodecValue} {oldrevs : Option (List LaStorageRev)}
  {history : List LaStorageRev} {ret : LaDbPutReturn BdbStore}

/-- The array a caller passes for a history. An empty one may be NULL. -/
def PassedAs (oldrevs : Option (List LaStorageRev)) (history : List LaStorageRev) : Prop :=
  oldrevs = some history ∨ oldrevs = none ∧ history = []

/-- An acknowledged replace whose commit did not fail has written its object. -/
theorem laDbReplace_written {revcount : Nat}
    (h : laDbReplace (bdbDb host calls) c s (some key) (some rev) (some doc) oldrevs revcount =
      some ret)
    (ok : ret.result = .ok) (commit : calls.txnCommit = true) :
    ∃ data o, host.encode (replaceDoc doc) = some data ∧
      laStorageCreateObject c.created c.heap key rev.rev data (UInt32.ofNat data.length) oldrevs
        revcount = some (some o) ∧
      ret.store = written calls s (markReplaced o (isDeleted doc) rev.seq) := by
  rcases laDbReplace_cases h with ⟨_, failed⟩ |
    ⟨k, v, d, data, o, r, s', o', hk, hv, hd, _, encoded, created, replaced, rfl⟩
  · exact absurd ok failed
  obtain rfl := Option.some.inj hk
  obtain rfl := Option.some.inj hv
  obtain rfl := Option.some.inj hd
  refine ⟨data, o, encoded, created, ?_⟩
  obtain ⟨rfl, rfl, rfl⟩ := Prod.mk.inj (Option.some.inj replaced) |>.imp_right Prod.mk.inj
  rcases bdbLaStorageReplace_cases calls s (markReplaced o (isDeleted doc) rev.seq) with
    unstored | stored
  · have success : (bdbLaStorageReplace calls s
        (markReplaced o (isDeleted doc) rev.seq)).result = .success := by
      by_contra failed
      rw [if_neg failed] at ok
      cases ok
    rw [unstored.claimed success] at commit
    cases commit
  · exact stored.store

theorem PassedAs.getD (passed : PassedAs oldrevs history) : oldrevs.getD [] = history := by
  rcases passed with rfl | ⟨rfl, rfl⟩ <;> rfl

/-- After an acknowledged replace that was committed, the history, the revision and the document
are read back as they were given, and no other record has changed. -/
theorem laDbReplace_roundTrip (trips : RoundTrips host (replaceDoc doc))
    (passed : PassedAs oldrevs history)
    (few : history.length ≤ laObjectMaxRevisionCount)
    (fits : ∀ data ∈ host.encode (replaceDoc doc),
      headerSize + 16 * history.length + data.length < 2 ^ 32)
    (h : laDbReplace (bdbDb host calls) c s (some key) (some rev) (some doc) oldrevs
      history.length = some ret)
    (ok : ret.result = .ok) (commit : calls.txnCommit = true) :
    (∀ again : BdbCalls, again.Succeed →
      bdbLaStorageGetAllRevs again ret.store key =
        ⟨history.length, some rev.seq, some history⟩) ∧
    (∃ header, StoredHeader ret.store key header ∧ header.docSeq = rev.seq ∧
      header.rev = rev.rev) ∧
    (∀ again : BdbCalls, again.dbGet = none →
      if isDeleted doc then (laDbGet (bdbDb host again) ret.store key none).result = .notFound
      else laDbGet (bdbDb host again) ret.store key none =
        ⟨.ok, some (replaceDoc doc), some rev⟩) ∧
    ∀ other, other ≠ key → ret.store.db.lookup other = s.db.lookup other := by
  obtain ⟨data, o, encoded, created, stored⟩ := laDbReplace_written h ok commit
  have size := fits data encoded
  rw [laObjectMaxRevisionCount] at few
  obtain ⟨hkey, hrev, laid⟩ :=
    createObject_laidOut (by omega) (by rw [passed.getD]) (by omega) created
  rw [passed.getD] at laid
  have marked : LaidOut (markReplaced o (isDeleted doc) rev.seq) history data :=
    ⟨laid.counted, laid.length, laid.content⟩
  obtain ⟨d, db, stamped, rfl, rfl⟩ := written_record calls s marked size
  have markedKey : (markReplaced o (isDeleted doc) rev.seq).key = key := hkey
  rw [markedKey, ← stored] at db
  have found : ret.store.db.lookup key = some d.bytes := by rw [db, AList.lookup_insert]
  have docSeq : d.header.docSeq = rev.seq := by rw [stamped]; rfl
  have current : d.header.rev = rev.rev := by rw [stamped]; exact hrev
  have deleted : d.header.deleted = isDeleted doc := by rw [stamped]; rfl
  refine ⟨fun again succeeds => ?_, ⟨d.header, ?_, docSeq, current⟩, fun again reads => ?_,
    fun other ne => ?_⟩
  · rw [← docSeq]
    exact getAllRevs_docRecord d again succeeds found few
  · exact ⟨revBytes d.history ++ d.body, by rw [found, DocRecord.bytes, List.append_assoc]⟩
  · cases gone : isDeleted doc with
    | true =>
      rw [if_pos rfl]
      obtain ⟨_, header, _⟩ := objectOfValue_docRecord d again.heap key
      simp [laDbGet, bdbDb, bdbDriver, bdbLaStorageGet, reads, found, header, deleted, gone]
    | false =>
      have live : LiveRecord host ret.store key d (replaceDoc doc) := by
        refine ⟨found, deleted.trans gone, ?_, ?_⟩
        · obtain ⟨text, inflated, loaded⟩ := encode_shown trips encoded
          rw [inflated, Option.bind_some, loaded]
        · exact ApiMap.isTombstone_of_absent (ApiMap.replaceDoc_get_deleted doc)
      rw [if_neg Bool.false_ne_true, live.get reads, docSeq, current]
  · rw [db]
    exact AList.lookup_insert_ne ne

end Replace

section Samples
open ApiMap (memberName objectText textHost textHost_roundTrips)

private def textObject (text : CString) : LaCodecValue := .object [(memberName, .string text)]

private def replaceText (calls : BdbCalls) (text : CString) : Option (LaDbPutReturn BdbStore) :=
  laDbReplace (bdbDb textHost calls) {} bdbEmpty (some memberName) (some ⟨1, uniformRev 1⟩)
    (some (textObject text)) (some []) 0

/-- With a text of `2 ^ 32` bytes the replace is acknowledged, and the document not read back. -/
private theorem replaceText_huge {text : CString} (huge : text.strlen = 2 ^ 32 - 9) :
    ∃ ret ∈ replaceText {} text, ret.result = .ok ∧
      (laDbGet (bdbDb textHost {}) ret.store memberName none).result = .error := by
  have encoded : textHost.encode (replaceDoc (textObject text)) =
      some (objectText text.bytes) := rfl
  obtain ⟨ret, returned⟩ : ∃ ret, replaceText {} text = some ret := by
    simp only [replaceText, laDbReplace, bdbDb, encoded]
    exact ⟨_, rfl⟩
  have ok : ret.result = .ok :=
    laDbReplace_ok returned ⟨rfl, rfl, rfl⟩ rfl rfl rfl (by rw [encoded]; rfl)
  refine ⟨ret, returned, ok, ?_⟩
  obtain ⟨data, o, hdata, created, stored⟩ := laDbReplace_written returned ok rfl
  obtain rfl := Option.some.inj (encoded.symm.trans hdata)
  have cut : UInt32.ofNat (objectText text.bytes).length = 0 := by
    have length : (objectText text.bytes).length = 2 ^ 32 := by
      simp only [CString.strlen] at huge
      simp [objectText, huge]
    rw [length]
    rfl
  obtain ⟨count, length⟩ := createObject_counts created
  have plain : o.header.revCount.toNat = 0 := Nat.le_zero.mp count
  have empty : o.dataLength.toNat = 0 := by rw [length, cut]; rfl
  have laid : LaidOut (markReplaced o false 1) [] [] := ⟨plain, empty, rfl⟩
  obtain ⟨d, db, stamped, _, body⟩ := written_record {} bdbEmpty laid (by decide)
  have markedKey : (markReplaced o false 1).key = memberName := (createObject_shows created).1
  have found : ret.store.db.lookup memberName = some d.bytes := by
    have same : ret.store.db = (written {} bdbEmpty (markReplaced o false 1)).db := by
      rw [stored]
      rfl
    rw [same, db, markedKey, AList.lookup_insert]
  refine laDbGet_undecoded found (by rw [stamped]; rfl) ?_ {}
  rw [body]
  rfl

/-- A document too large for the 32 bits of its length, and one whose commit fails: both are
acknowledged and not read back. -/
theorem replaced_not_read :
    (∀ doc, RoundTrips textHost doc) ∧
    (∃ text : CString, text.strlen = 2 ^ 32 - 9 ∧ ∃ ret ∈ replaceText {} text, ret.result = .ok ∧
      (laDbGet (bdbDb textHost {}) ret.store memberName none).result = .error) ∧
    ∃ ret ∈ replaceText { txnCommit := false } (CString.ofBytes [98]), ret.result = .ok ∧
      (laDbGet (bdbDb textHost {}) ret.store memberName none).result = .notFound := by
  refine ⟨textHost_roundTrips, ⟨⟨List.replicate (2 ^ 32 - 9) 98, fun h => ?_⟩,
    List.length_replicate, replaceText_huge List.length_replicate⟩, by decide +kernel⟩
  simpa using List.eq_of_mem_replicate h

/-- A document with one revision behind it. -/
theorem replaced_read :
    ∃ ret ∈ laDbReplace (bdbDb textHost {}) {} bdbEmpty (some memberName)
        (some ⟨4, uniformRev 1⟩) (some (textObject (CString.ofBytes [98])))
        (some [uniformRev 2]) 1,
      ret.result = .ok ∧
      bdbLaStorageGetAllRevs {} ret.store memberName = ⟨1, some 4, some [uniformRev 2]⟩ ∧
      laDbGet (bdbDb textHost {}) ret.store memberName none =
        ⟨.ok, some (replaceDoc (textObject (CString.ofBytes [98]))), some ⟨4, uniformRev 1⟩⟩ := by
  have acknowledged : ∃ ret ∈ laDbReplace (bdbDb textHost {}) {} bdbEmpty (some memberName)
      (some ⟨4, uniformRev 1⟩) (some (textObject (CString.ofBytes [98])))
      (some [uniformRev 2]) 1, ret.result = .ok := by
    decide +kernel
  obtain ⟨ret, returned, ok⟩ := acknowledged
  have small : ∀ data ∈ textHost.encode (replaceDoc (textObject (CString.ofBytes [98]))),
      headerSize + 16 * [uniformRev 2].length + data.length < 2 ^ 32 := by
    intro data encoded
    obtain rfl : objectText [98] = data := Option.some.inj encoded
    decide
  obtain ⟨revs, _, get, _⟩ := laDbReplace_roundTrip (textHost_roundTrips _) (Or.inl rfl) (by decide)
    small returned ok rfl
  exact ⟨ret, returned, ok, revs {} BdbCalls.succeed_default, get {} rfl⟩

end Samples

end ReplaceReads
