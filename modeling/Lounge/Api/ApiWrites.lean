import Lounge.Api.LoungeApi

/-!
# What the write calls do

One inversion lemma for each write path of the API: either nothing reaches the
driver, or the driver is given an object with the encoded document.
-/

namespace ApiWrites
open FlatMemory ObjectStore CodecValue CouchRevgen LoungeApi

/-- The object that `la_storage_create_object` returns shows what it was given, as long as
the length survives its 32 bits. -/
theorem createObject_shows {allocated : Bool} {heap : Memory} {key : CString}
    {rev : LaStorageRev} {data : List UInt8} {revs : Option (List LaStorageRev)} {revcount : Nat}
    {o : LaStorageObject}
    (h : laStorageCreateObject allocated heap key rev data (UInt32.ofNat data.length) revs
      revcount = some (some o)) :
    o.key = key ∧ o.header.rev = rev ∧
      (data.length < 2 ^ 32 → o.laStorageObjectGetData = data) := by
  have hlen : data.length < 2 ^ 32 → (UInt32.ofNat data.length).toNat = data.length := by
    intro small
    simp only [UInt32.toNat_ofNat']
    exact Nat.mod_eq_of_lt small
  simp only [laStorageCreateObject] at h
  split at h
  · simp at h
  · split at h
    · obtain rfl := Option.some.inj (Option.some.inj h)
      refine ⟨rfl, rfl, fun small => ?_⟩
      simp only [LaStorageObject.laStorageObjectGetData, LaStorageObject.dataOffset, hlen small,
        List.take_length]
      exact read_store_self _ 0 data
    · split at h
      · cases h
      · obtain rfl := Option.some.inj (Option.some.inj h)
        refine ⟨rfl, rfl, fun small => ?_⟩
        simp only [LaStorageObject.laStorageObjectGetData, LaStorageObject.dataOffset, hlen small,
          List.take_length]
        exact read_store_self _ _ data

theorem createObject_counts {allocated : Bool} {heap : Memory} {key : CString}
    {rev : LaStorageRev} {data : List UInt8} {length : UInt32}
    {revs : Option (List LaStorageRev)} {revcount : Nat} {o : LaStorageObject}
    (h : laStorageCreateObject allocated heap key rev data length revs revcount = some (some o)) :
    o.header.revCount.toNat ≤ revcount ∧ o.dataLength = length := by
  simp only [laStorageCreateObject] at h
  split at h
  · simp at h
  · split at h
    · obtain rfl := Option.some.inj (Option.some.inj h)
      exact ⟨Nat.zero_le _, rfl⟩
    · split at h
      · cases h
      · obtain rfl := Option.some.inj (Option.some.inj h)
        refine ⟨?_, rfl⟩
        rw [BitVec.toNat_ofNat]
        exact Nat.mod_le _ _

theorem createObject_fresh {allocated : Bool} {heap : Memory} {key : CString}
    {rev : LaStorageRev} {data : List UInt8} {length : UInt32}
    {revs : Option (List LaStorageRev)} {revcount : Nat} {o : LaStorageObject}
    (h : laStorageCreateObject allocated heap key rev data length revs revcount = some (some o)) :
    o.key = key ∧ o.header.docSeq = 0 := by
  simp only [laStorageCreateObject] at h
  split at h
  · simp at h
  · split at h
    · obtain rfl := Option.some.inj (Option.some.inj h)
      exact ⟨rfl, rfl⟩
    · split at h
      · cases h
      · obtain rfl := Option.some.inj (Option.some.inj h)
        exact ⟨rfl, rfl⟩

/-- Decoding undoes the encoding of a document, in the codec and in the compressor of the host. -/
structure RoundTrips (host : LaHost) (doc : LaCodecValue) : Prop where
  codec : ∀ b, host.codec.dump doc = some b → host.codec.loadb b = some doc
  compressor : ∀ c, host.compressor = some c → ∀ b z, host.codec.dump doc = some b →
    c.compressor b = some z → c.decompressor z = some b

theorem emptyObjectCodec_roundTrips (revgen : RevgenLib) (doc : LaCodecValue) :
    RoundTrips ⟨emptyObjectCodec, revgen, none⟩ doc := by
  refine ⟨fun b dumped => ?_, fun c compressed => by cases compressed⟩
  simp only [emptyObjectCodec] at dumped
  split at dumped
  · obtain rfl := Option.some.inj dumped
    rfl
  · cases dumped

theorem encode_shown {host : LaHost} {doc : LaCodecValue} (trips : RoundTrips host doc)
    {z : List UInt8} (h : host.encode doc = some z) :
    ∃ data, host.inflate z = some data ∧ host.codec.loadb data = some doc := by
  obtain ⟨b, hdump, hdeflate⟩ := Option.bind_eq_some_iff.mp h
  refine ⟨b, ?_, trips.codec b hdump⟩
  cases hc : host.compressor with
  | none =>
    simp only [LaHost.deflate, hc, Option.some.injEq] at hdeflate
    simp only [LaHost.inflate, hc, hdeflate]
  | some c =>
    simp only [LaHost.deflate, hc] at hdeflate
    simp only [LaHost.inflate, hc, trips.compressor c hc b z hdump hdeflate]

section Writes
variable {σ : Type} {db : LaDb σ} {c : ApiCalls} {s : σ}

/-- The revision that `do_la_db_put` computes. -/
def nextRev (host : LaHost) (oldrev : Option LaRev) (doc : LaCodecValue) (isDelete : Bool) :
    LaStorageRev :=
  laRevgen host.revgen (putDoc doc) ((oldrev.map LaRev.seq).getD 0) (oldrev.map LaRev.rev) isDelete

/-- The call `do_la_db_put` makes to the driver, and the object it makes it with. -/
structure PutsObject (host : LaHost) (c : ApiCalls) (key : Option CString)
    (oldrev : Option LaRev) (doc : LaCodecValue) (isDelete : Bool) (data : List UInt8)
    (o : LaStorageObject) : Prop where
  isObject : doc.laCodecIsObject = true
  notDeleted : isDelete = false → doc.laCodecObjectGet laApiDeletedName = none
  encoded : host.encode (putDoc doc) = some data
  created : laStorageCreateObject c.created c.heap (key.getD (keyOfDoc c doc))
    (nextRev host oldrev doc isDelete) data (UInt32.ofNat data.length) none 0 = some (some o)

/-- `o` with the deleted bit that both write paths set after creating the object. -/
def markDeleted (o : LaStorageObject) (deleted : Bool) : LaStorageObject :=
  { o with header := { o.header with deleted := deleted } }

/-- The call gets as far as the driver, with object `o`. -/
structure AsksDriver (host : LaHost) (c : ApiCalls) (key : Option CString) (oldrev : Option LaRev)
    (doc : LaCodecValue) (isDelete : Bool) (data : List UInt8) (o : LaStorageObject) : Prop
    extends PutsObject host c key oldrev doc isDelete data o where
  copied : c.copied = true

section Asked
variable {key : Option CString} {oldrev : Option LaRev} {d : LaCodecValue} {isDelete : Bool}

/-- A put that gets as far does what the driver does. -/
theorem doLaDbPut_asked {data : List UInt8} {o : LaStorageObject}
    (asks : AsksDriver db.host c key oldrev d isDelete data o) :
    doLaDbPut db c s key oldrev (some d) isDelete =
      if c.buffer then
        (db.driver.put s (oldrev.map LaRev.rev) (markDeleted o isDelete)).map fun ret =>
          ⟨putResult ret.1, ret.2.1,
            some ⟨ret.2.2.header.docSeq, nextRev db.host oldrev d isDelete⟩⟩
      else none := by
  have valid : ¬(!d.laCodecIsObject ||
      (!isDelete && (d.laCodecObjectGet laApiDeletedName).isSome)) = true := by
    have notDeleted := asks.notDeleted
    cases isDelete <;> simp [asks.isObject, notDeleted]
  have created := asks.created
  rw [nextRev] at created
  simp only [doLaDbPut, if_neg valid, asks.copied, asks.encoded, created]
  cases c.buffer <;> rfl

/-- And one that does not returns with the store and `*newrev` as they were. -/
theorem doLaDbPut_unasked {ret : LaDbPutReturn σ}
    (h : doLaDbPut db c s key oldrev (some d) isDelete = some ret) :
    (∃ data o, AsksDriver db.host c key oldrev d isDelete data o) ∨
      (ret.store = s ∧ ret.newrev = none ∧ ret.result ≠ .ok) := by
  by_cases invalid : (!d.laCodecIsObject ||
      (!isDelete && (d.laCodecObjectGet laApiDeletedName).isSome)) = true
  · rw [doLaDbPut, if_pos invalid] at h
    cases h
    exact Or.inr ⟨rfl, rfl, by simp⟩
  cases copied : c.copied with
  | false =>
    simp only [doLaDbPut, if_neg invalid, copied] at h
    cases h
    exact Or.inr ⟨rfl, rfl, by simp⟩
  | true =>
    simp only [doLaDbPut, if_neg invalid, copied, Bool.not_true, Bool.false_eq_true,
      if_false] at h
    cases buffer : c.buffer with
    | false => simp [buffer] at h
    | true =>
      simp only [buffer, Bool.not_true, Bool.false_eq_true, if_false] at h
      cases encoded : db.host.encode (putDoc d) with
      | none =>
        rw [encoded] at h
        cases h
        exact Or.inr ⟨rfl, rfl, by simp⟩
      | some data =>
        simp only [encoded] at h
        split at h
        · cases h
        · cases h
          exact Or.inr ⟨rfl, rfl, by simp⟩
        · rename_i o made
          simp only [Bool.or_eq_true, Bool.not_eq_true', Bool.and_eq_true, not_or, not_and,
            Bool.not_eq_false] at invalid
          refine Or.inl ⟨data, o, ⟨invalid.1, fun hd => ?_, encoded, made⟩, copied⟩
          simpa using invalid.2 hd

end Asked

theorem doLaDbPut_split {key : Option CString} {oldrev : Option LaRev}
    {doc : Option LaCodecValue} {isDelete : Bool} {ret : LaDbPutReturn σ}
    (h : doLaDbPut db c s key oldrev doc isDelete = some ret) :
    ((∀ d data o, doc = some d → ¬ AsksDriver db.host c key oldrev d isDelete data o) ∧
      ret.store = s ∧ ret.newrev = none ∧ ret.result ≠ .ok) ∨
    ∃ d data o r s' o', doc = some d ∧ AsksDriver db.host c key oldrev d isDelete data o ∧
      db.driver.put s (oldrev.map LaRev.rev) (markDeleted o isDelete) = some (r, s', o') ∧
      ret = ⟨putResult r, s', some ⟨o'.header.docSeq, nextRev db.host oldrev d isDelete⟩⟩ := by
  cases doc with
  | none =>
    cases h
    exact Or.inl ⟨by simp, rfl, rfl, by simp⟩
  | some d =>
    by_cases asked : ∃ data o, AsksDriver db.host c key oldrev d isDelete data o
    · obtain ⟨data, o, asks⟩ := asked
      rw [doLaDbPut_asked asks] at h
      split at h
      · obtain ⟨⟨r, s', o'⟩, hput, hret⟩ := Option.map_eq_some_iff.mp h
        exact Or.inr ⟨d, data, o, r, s', o', rfl, asks, hput, hret.symm⟩
      · cases h
    · refine Or.inl ⟨?_, (doLaDbPut_unasked h).resolve_left asked⟩
      rintro e data o same asks
      cases same
      exact asked ⟨data, o, asks⟩

theorem doLaDbPut_cases {key : Option CString} {oldrev : Option LaRev}
    {doc : Option LaCodecValue} {isDelete : Bool} {ret : LaDbPutReturn σ}
    (h : doLaDbPut db c s key oldrev doc isDelete = some ret) :
    (ret.store = s ∧ ret.result ≠ .ok) ∨
    ∃ d data o r s' o', doc = some d ∧ PutsObject db.host c key oldrev d isDelete data o ∧
      db.driver.put s (oldrev.map LaRev.rev) (markDeleted o isDelete) = some (r, s', o') ∧
      ret = ⟨putResult r, s', some ⟨o'.header.docSeq, nextRev db.host oldrev d isDelete⟩⟩ := by
  rcases doLaDbPut_split h with ⟨-, store, -, failed⟩ |
    ⟨d, data, o, r, s', o', hdoc, asks, put, hret⟩
  · exact Or.inl ⟨store, failed⟩
  · exact Or.inr ⟨d, data, o, r, s', o', hdoc, asks.toPutsObject, put, hret⟩

/-- `o` as `la_db_replace` numbers it. -/
def markReplaced (o : LaStorageObject) (deleted : Bool) (docSeq : UInt64) : LaStorageObject :=
  { o with header := { o.header with deleted := deleted, docSeq := docSeq } }

theorem laDbReplace_cases {key : Option CString} {rev : Option LaRev}
    {doc : Option LaCodecValue} {oldrevs : Option (List LaStorageRev)} {revcount : Nat}
    {ret : LaDbPutReturn σ} (h : laDbReplace db c s key rev doc oldrevs revcount = some ret) :
    (ret.store = s ∧ ret.result ≠ .ok) ∨
    ∃ k v d data o r s' o', key = some k ∧ rev = some v ∧ doc = some d ∧
      d.laCodecIsObject = true ∧ db.host.encode (replaceDoc d) = some data ∧
      laStorageCreateObject c.created c.heap k v.rev data (UInt32.ofNat data.length) oldrevs
        revcount = some (some o) ∧
      db.driver.replace s (markReplaced o (isDeleted d) v.seq) = some (r, s', o') ∧
      ret = ⟨if r = .success then .ok else .error, s', none⟩ := by
  rcases key with _ | k
  · cases h
    exact Or.inl ⟨rfl, by simp⟩
  rcases rev with _ | v
  · cases h
    exact Or.inl ⟨rfl, by simp⟩
  rcases doc with _ | d
  · cases h
    exact Or.inl ⟨rfl, by simp⟩
  simp only [laDbReplace] at h
  split at h
  · cases h
    exact Or.inl ⟨rfl, by simp⟩
  · rename_i hobject
    split at h
    · cases h
      exact Or.inl ⟨rfl, by simp⟩
    · split at h
      · cases h
        exact Or.inl ⟨rfl, by simp⟩
      · rename_i data hdata
        split at h
        · cases h
        · rename_i o ho
          obtain ⟨⟨r, s', o'⟩, hreplace, hret⟩ := Option.map_eq_some_iff.mp h
          exact Or.inr ⟨k, v, d, data, o, r, s', o', rfl, rfl, rfl, by simpa using hobject, hdata,
            Option.join_eq_some_iff.mp ho, hreplace, hret.symm⟩

end Writes

end ApiWrites
