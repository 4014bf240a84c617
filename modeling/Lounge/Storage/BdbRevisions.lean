import Lounge.Storage.BdbPut

/-!
# Revisions asked for and replaced

`bdb_la_storage_get` with a revision, and `bdb_la_storage_set_revs`. The first compares
with a header that it did not read when the object is wanted; the second counts in
revisions where it means bytes, and leaves the count in the header.
-/

namespace BdbRevisions
open FlatMemory ObjectStore BdbDriver BdbRecord BdbPut

/-- The current revision of a record. -/
def currentRev (value : List UInt8) : LaStorageRev := (partialHeader (fun _ => 0) value).rev

section Get
variable {c : BdbCalls} {s : BdbStore} {key : CString} {r : LaStorageRev}

/-- A get by revision finds the record exactly when the revision is its current one, and then
gives the same object as one without. -/
structure GetsByRevision (c : BdbCalls) (s : BdbStore) (key : CString) (r : LaStorageRev)
    (obj : Bool) : Prop where
  ok_iff : (bdbLaStorageGet c s key (some r) obj).1 = .ok ↔
    ∃ value, s.db.lookup key = some value ∧ currentRev value = r
  otherwise : (bdbLaStorageGet c s key (some r) obj).1 ≠ .ok →
    (bdbLaStorageGet c s key (some r) obj).1 = .notFound
  object : (bdbLaStorageGet c s key (some r) obj).1 = .ok → obj = true →
    (bdbLaStorageGet c s key (some r) obj).2 = (bdbLaStorageGet c s key none obj).2

theorem get_absent (ok : c.dbGet = none) (absent : s.db.lookup key = none)
    (rev : Option LaStorageRev) (obj : Bool) :
    bdbLaStorageGet c s key rev obj = (.notFound, none) := by
  simp [bdbLaStorageGet, ok, absent]

/-- Without an object the stored header is read. -/
theorem get_header (ok : c.dbGet = none) {value : List UInt8}
    (found : s.db.lookup key = some value) :
    (bdbLaStorageGet c s key (some r) false).1 =
      if currentRev value = r then .ok else .notFound := by
  by_cases same : currentRev value = r
  · simp [bdbLaStorageGet, ok, found, ← same, currentRev]
  · have ne : r ≠ (partialHeader (fun _ => 0) value).rev := fun eq => same eq.symm
    simp [bdbLaStorageGet, ok, found, same, ne]

/-- With one, the revision is compared with zeros. -/
theorem get_object (ok : c.dbGet = none) {value : List UInt8}
    (found : s.db.lookup key = some value) :
    bdbLaStorageGet c s key (some r) true =
      if r = zeroRev then bdbLaStorageGet c s key none true else (.notFound, none) := by
  by_cases zero : r = zeroRev
  · simp [bdbLaStorageGet, ok, found, zero]
  · simp [bdbLaStorageGet, ok, found, zero]

theorem get_current (ok : c.dbGet = none) {value : List UInt8}
    (found : s.db.lookup key = some value) : (bdbLaStorageGet c s key none true).1 = .ok := by
  simp [bdbLaStorageGet, ok, found]

/-- A get by revision does what it is for unless the object is wanted, and then where zeros are
asked for exactly when they are stored. -/
theorem getsByRevision_iff (ok : c.dbGet = none) (obj : Bool) :
    GetsByRevision c s key r obj ↔
      (obj = true → ∀ value, s.db.lookup key = some value →
        (r = zeroRev ↔ currentRev value = r)) := by
  cases found : s.db.lookup key with
  | none =>
    have nothing := get_absent ok found (some r) obj
    refine ⟨fun _ _ value => nofun, fun _ => ⟨?_, fun _ => ?_, ?_⟩⟩
    · simp [nothing, found]
    · rw [nothing]
    · simp [nothing]
  | some value =>
    cases obj with
    | false =>
      have read := get_header (r := r) ok found
      refine ⟨fun _ => nofun, fun _ => ⟨?_, fun failed => ?_, fun _ => nofun⟩⟩
      · rw [read]
        by_cases same : currentRev value = r
        · simp [same, found]
        · simp [same, found]
      · rw [read] at failed ⊢
        by_cases same : currentRev value = r
        · simp [same] at failed
        · simp [same]
    | true =>
      have read := get_object (r := r) ok found
      have current := get_current ok found
      have result : (bdbLaStorageGet c s key (some r) true).1 = .ok ↔ r = zeroRev := by
        by_cases zero : r = zeroRev
        · rw [read, if_pos zero]
          simp [current, zero]
        · simp [read, zero]
      have stored : (∃ v, some value = some v ∧ currentRev v = r) ↔ currentRev value = r := by
        simp
      constructor
      · intro gets _ v hv
        obtain rfl := Option.some.inj hv
        rw [← result, gets.ok_iff, found, stored]
      · intro exact_
        refine ⟨?_, fun failed => ?_, fun got _ => ?_⟩
        · rw [result, exact_ rfl value rfl, found, stored]
        · have zero : r ≠ zeroRev := fun zero => failed (result.mpr zero)
          simp [read, zero]
        · rw [read, if_pos (result.mp got)]

end Get

section SetRevs
variable {c : BdbCalls} {s : BdbStore} {key : CString} {d : DocRecord} {revs : List LaStorageRev}

/-- Whatever `bdb_la_storage_set_revs` reads or writes of the record lies in its block: the
document before and after it moves, the new revisions, what `db->put` is given. -/
def setRevsInside (c : BdbCalls) (key : CString) (value : List UInt8)
    (revs : List LaStorageRev) : Prop :=
  let object := objectOfValue c.heap key value
  let shift : Int := revs.length - object.header.revCount.toNat
  let size := ((value.length + shift) % 2 ^ 32).toNat
  let block := if 0 < shift then size else value.length
  let data := headerSize + object.dataOffset
  data + object.dataLength.toNat ≤ block ∧ 0 ≤ data + shift ∧
    data + shift + object.dataLength.toNat ≤ block ∧ headerSize + 16 * revs.length ≤ block ∧
    size ≤ block

instance (c : BdbCalls) (key : CString) (value : List UInt8) (revs : List LaStorageRev) :
    Decidable (setRevsInside c key value revs) := by
  delta setRevsInside
  infer_instance

/-- After `bdb_la_storage_set_revs` the record has the new history and is otherwise what it was. -/
structure SetRevsKeeps (c : BdbCalls) (s : BdbStore) (key : CString) (d : DocRecord)
    (revs : List LaStorageRev) : Prop where
  listed : ∀ c' : BdbCalls, c'.Succeed →
    bdbLaStorageGetAllRevs c' (bdbLaStorageSetRevs c s key revs).store key =
      ⟨(revs.take laObjectMaxRevisionCount).length, some d.header.docSeq,
        some (revs.take laObjectMaxRevisionCount)⟩
  kept : ∃ value, (bdbLaStorageSetRevs c s key revs).store.db.lookup key = some value ∧
    ∀ heap, let o := objectOfValue heap key value
      o.header.rev = d.header.rev ∧ o.header.docSeq = d.header.docSeq ∧
        o.header.deleted = d.header.deleted ∧ o.laStorageObjectGetData = d.body
  inside : setRevsInside c key d.bytes (revs.take laObjectMaxRevisionCount)

/-- A call that reports success has stored the new value, unless its commit failed. -/
theorem setRevs_success {value : List UInt8} (found : s.db.lookup key = some value)
    (success : (bdbLaStorageSetRevs c s key revs).result = .success) :
    (bdbLaStorageSetRevs c s key revs).store =
      if c.txnCommit then
        { s with db := s.db.insert key
                  (setRevsValue c value (revs.take laObjectMaxRevisionCount)) }
      else s := by
  simp only [bdbLaStorageSetRevs, found] at success ⊢
  by_cases begun : c.txnBegin = true
  · cases failure : c.dbGet with
    | some f => cases f <;> simp [begun, failure] at success
    | none =>
      simp only [begun, failure, Bool.not_true, Bool.false_eq_true, if_false] at success ⊢
      split at success
      · cases success
      · rename_i grown
        split at success
        · cases success
        · rename_i put
          rw [if_neg grown, if_neg put]
          cases c.txnCommit <;> rfl
  · simp [begun] at success

theorem setRevs_parts (c : BdbCalls) (key : CString) (d : DocRecord) :
    (objectOfValue c.heap key d.bytes).header = d.header ∧
      (objectOfValue c.heap key d.bytes).dataOffset = 16 * d.history.length ∧
      (objectOfValue c.heap key d.bytes).dataLength.toNat = d.body.length := by
  obtain ⟨_, header, length, _, _⟩ := objectOfValue_docRecord d c.heap key
  refine ⟨header, ?_, length⟩
  rw [LaStorageObject.dataOffset, header, d.counted]

/-- What stays inside its block keeps the header, and so the old count. -/
theorem setRevsValue_header (inside : setRevsInside c key d.bytes revs) :
    ∃ tail, setRevsValue c d.bytes revs = d.header.bytes ++ tail := by
  obtain ⟨header, offset, length⟩ := setRevs_parts c key d
  obtain ⟨header', _, _⟩ := setRevs_parts c ⟨[], List.not_mem_nil⟩ d
  have fits := d.fits
  simp only [setRevsInside, header, offset, length, d.counted, d.length_bytes] at inside
  have size : headerSize ≤ (((d.bytes.length : Int) + (revs.length - d.history.length)) %
      2 ^ 32).toNat := by
    rw [d.length_bytes]
    split at inside <;> omega
  simp only [setRevsValue, header', d.counted]
  generalize (((d.bytes.length : Int) + (revs.length - d.history.length)) % 2 ^ 32).toNat = n
    at size
  refine ⟨_, List.take_of_length_le ?_⟩
  rw [List.length_append, length_header_bytes, length_read]
  omega

/-- As many revisions as there were: nothing moves. -/
theorem setRevs_inside_of_length (same : revs.length = d.history.length) :
    setRevsInside c key d.bytes revs := by
  obtain ⟨header, offset, length⟩ := setRevs_parts c key d
  have fits := d.fits
  have nothing : (d.history.length : Int) - d.history.length = 0 := by omega
  simp only [setRevsInside, header, offset, length, d.counted, d.length_bytes, same, nothing,
    lt_irrefl, if_false]
  omega

/-- The record with another history of the same length. -/
def withHistory (d : DocRecord) (revs : List LaStorageRev) (same : revs.length = d.history.length) :
    DocRecord where
  header := d.header
  history := revs
  body := d.body
  counted := d.counted.trans same.symm
  fits := same ▸ d.fits

theorem withHistory_bytes (same : revs.length = d.history.length) :
    (withHistory d revs same).bytes = d.header.bytes ++ revBytes revs ++ d.body := rfl

theorem setRevsValue_of_length (same : revs.length = d.history.length) :
    setRevsValue c d.bytes revs = (withHistory d revs same).bytes := by
  obtain ⟨header, offset, length⟩ := setRevs_parts c ⟨[], List.not_mem_nil⟩ d
  have fits := d.fits
  have nothing : (revs.length : Int) - d.history.length = 0 := by omega
  have size : (((d.bytes.length : Int) + 0) % 2 ^ 32).toNat = d.bytes.length := by
    rw [d.length_bytes]
    omega
  have still : ∀ (m : Memory) (off n : Nat), move m (((off : Int) + 0).toNat) off n = m := by
    intro m off n
    funext i
    have here : ((off : Int) + 0).toNat = off := by omega
    rw [here]
    by_cases inside : off ≤ i ∧ i < off + n
    · obtain ⟨k, rfl⟩ := Nat.exists_eq_add_of_le inside.1
      exact move_inside m off off (by omega)
    · exact move_outside (by omega)
  simp only [setRevsValue, header, d.counted, nothing, size, still, lt_irrefl, if_false]
  -- The document lies behind the revisions, where it was.
  have revsBytes : revs.flatMap LaStorageRev.rev = revBytes revs := rfl
  have behind : read (objectOfValue c.heap ⟨[], List.not_mem_nil⟩ d.bytes).revsData
      (16 * d.history.length) d.body.length = d.body := by
    obtain ⟨_, _, _, data, _⟩ := objectOfValue_docRecord d c.heap ⟨[], List.not_mem_nil⟩
    rwa [LaStorageObject.laStorageObjectGetData, offset, length] at data
  have rest : d.bytes.length - headerSize = (revBytes revs).length + d.body.length := by
    rw [d.length_bytes, length_revBytes, same]
    omega
  rw [revsBytes, rest, ← read_append, read_store_self,
    read_store_outside (by rw [length_revBytes]; omega), Nat.zero_add, length_revBytes, same,
    behind]
  have whole : (d.header.bytes ++ (revBytes revs ++ d.body)).length ≤ d.bytes.length := by
    rw [List.length_append, List.length_append, length_header_bytes, length_revBytes,
      d.length_bytes, same]
    omega
  rw [List.take_of_length_le whole, withHistory_bytes, List.append_assoc]

/-- The count that `get_all_revs` returns is the one in the header. -/
theorem getAllRevs_count {c : BdbCalls} (ok : c.Succeed) {s : BdbStore} {key : CString}
    {h : LaStorageObjectHeader} (stored : StoredHeader s key h) :
    (bdbLaStorageGetAllRevs c s key).count = h.revCount.toNat := by
  obtain ⟨tail, found⟩ := stored
  have cut : (h.bytes ++ tail).take (headerSize + 16 * laObjectMaxRevisionCount) =
      h.bytes ++ tail.take (16 * laObjectMaxRevisionCount) := by
    rw [List.take_append, List.take_of_length_le (by simp), length_header_bytes,
      Nat.add_sub_cancel_left]
  simp only [bdbLaStorageGetAllRevs, ok.dbGet, found, cut, headerAt_load]

/-- The new list cannot be longer or shorter than the old one. -/
theorem SetRevsKeeps.length (keeps : SetRevsKeeps c s key d revs)
    (found : s.db.lookup key = some d.bytes)
    (success : (bdbLaStorageSetRevs c s key revs).result = .success) :
    (revs.take laObjectMaxRevisionCount).length = d.history.length := by
  have after := setRevs_success found success
  have stored : StoredHeader (bdbLaStorageSetRevs c s key revs).store key d.header := by
    rw [after]
    cases c.txnCommit with
    | true =>
      obtain ⟨tail, value⟩ := setRevsValue_header keeps.inside
      exact ⟨tail, by rw [if_pos rfl, AList.lookup_insert, value]⟩
    | false =>
      refine ⟨revBytes d.history ++ d.body, ?_⟩
      rw [if_neg Bool.false_ne_true, found, DocRecord.bytes, List.append_assoc]
  have count := getAllRevs_count BdbCalls.succeed_default stored
  rw [keeps.listed {} BdbCalls.succeed_default, d.counted] at count
  dsimp only at count
  omega

/-- `bdb_la_storage_set_revs` does what it is for exactly when the list, cut at the cap, has as
many revisions as the record, and is stored: its commit succeeds, or it was there before. -/
theorem setRevsKeeps_iff (found : s.db.lookup key = some d.bytes)
    (success : (bdbLaStorageSetRevs c s key revs).result = .success) :
    SetRevsKeeps c s key d revs ↔
      (revs.take laObjectMaxRevisionCount).length = d.history.length ∧
        (c.txnCommit = true ∨ revs.take laObjectMaxRevisionCount = d.history) := by
  have after := setRevs_success found success
  have cap : (revs.take laObjectMaxRevisionCount).length ≤ laObjectMaxRevisionCount :=
    List.length_take_le _ _
  constructor
  · intro keeps
    have same := keeps.length found success
    refine ⟨same, ?_⟩
    cases commit : c.txnCommit with
    | true => exact Or.inl rfl
    | false =>
      have listed := keeps.listed {} BdbCalls.succeed_default
      rw [after, commit, if_neg Bool.false_ne_true,
        getAllRevs_docRecord d {} BdbCalls.succeed_default found (same ▸ cap)] at listed
      exact Or.inr (Option.some.inj (congrArg AllRevs.revs listed)).symm
  · rintro ⟨same, stored⟩
    -- Either way the record is `d` with the new history.
    have record : (bdbLaStorageSetRevs c s key revs).store.db.lookup key =
        some (withHistory d (revs.take laObjectMaxRevisionCount) same).bytes := by
      rw [after]
      cases commit : c.txnCommit with
      | true => rw [if_pos rfl, AList.lookup_insert, setRevsValue_of_length same]
      | false =>
        have there := stored.resolve_left (by simp [commit])
        rw [if_neg Bool.false_ne_true, found, withHistory_bytes, there, DocRecord.bytes]
    refine ⟨fun c' ok => ?_, ⟨_, record, fun heap => ?_⟩, setRevs_inside_of_length same⟩
    · exact getAllRevs_docRecord _ c' ok record cap
    · obtain ⟨_, parts, _, data, _⟩ :=
        objectOfValue_docRecord (withHistory d (revs.take laObjectMaxRevisionCount) same) heap key
      simp only [parts, data]
      exact ⟨rfl, rfl, rfl, rfl⟩

end SetRevs

section Samples

private def sampleKey : CString := CString.ofBytes [97]

private def sampleObject : LaStorageObject where
  key := sampleKey
  header := ⟨0, 0, false, 0, uniformRev 7⟩
  revsData := load [123, 125] fun _ => 0
  alloc := 2
  dataLength := 2

private theorem sample_stored : ∃ ret value,
    bdbLaStoragePut {} bdbEmpty none sampleObject = some ret ∧ ret.result = .success ∧
      ret.store.db.lookup sampleKey = some value ∧ currentRev value = uniformRev 7 := by
  have prep : Prepared {} bdbEmpty none sampleObject _ := .created rfl
  refine ⟨_, _, bdbLaStoragePut_prepared BdbCalls.succeed_default prep, rfl,
    AList.lookup_insert _, ?_⟩
  have covers : headerSize ≤ (numbered {} bdbEmpty { sampleObject with
      header := { sampleObject.header with docSeq := 1, revCount := 0 } }
    ).laStorageObjectTotalSize % 2 ^ 32 := by decide
  obtain ⟨tail, bytes⟩ := recordBytes_header covers
  rw [currentRev, bytes, partialHeader_bytes]
  rfl

/-- The revision that a put has just stored is found without the object, but not with it. -/
theorem stored_revision_not_found : ∃ ret,
    bdbLaStoragePut {} bdbEmpty none sampleObject = some ret ∧ ret.result = .success ∧
      (bdbLaStorageGet {} ret.store sampleKey (some (uniformRev 7)) false).1 = .ok ∧
      ¬GetsByRevision {} ret.store sampleKey (uniformRev 7) true := by
  obtain ⟨ret, value, put, success, found, current⟩ := sample_stored
  have nonzero : uniformRev 7 ≠ zeroRev := by decide
  refine ⟨ret, put, success, ?_, fun gets => ?_⟩
  · rw [get_header rfl found, if_pos current]
  · have ok := gets.ok_iff.mpr ⟨value, found, current⟩
    rw [get_object rfl found, if_neg nonzero] at ok
    cases ok

private def sampleRecord : DocRecord where
  header := ⟨1, 2, false, 1, uniformRev 7⟩
  history := [uniformRev 1]
  body := [123, 125]
  counted := rfl
  fits := by decide

private def sampleStore : BdbStore := ⟨AList.insert sampleKey sampleRecord.bytes ∅, 2⟩

private theorem sample_found : sampleStore.db.lookup sampleKey = some sampleRecord.bytes :=
  AList.lookup_insert _

/-- Another revision than the stored one is rightly not found. -/
theorem other_revision_not_found : GetsByRevision {} sampleStore sampleKey (uniformRev 9) true := by
  refine (getsByRevision_iff rfl true).mpr fun _ value found => ?_
  rw [sample_found] at found
  obtain rfl := Option.some.inj found
  have current : currentRev sampleRecord.bytes = uniformRev 7 := by
    rw [currentRev, partialHeader_docRecord]
    rfl
  rw [current]
  decide

private theorem sample_success (revs : List LaStorageRev) :
    (bdbLaStorageSetRevs {} sampleStore sampleKey revs).result = .success := by
  simp [bdbLaStorageSetRevs, sample_found]

/-- An empty list is not what `get_all_revs` returns afterwards. -/
theorem emptied_history_stays :
    sampleStore.db.lookup sampleKey = some sampleRecord.bytes ∧
      (bdbLaStorageSetRevs {} sampleStore sampleKey []).result = .success ∧
      ¬SetRevsKeeps {} sampleStore sampleKey sampleRecord [] := by
  refine ⟨sample_found, sample_success [], fun keeps => ?_⟩
  have length := keeps.length sample_found (sample_success [])
  exact absurd length (by decide)

/-- One revision in place of another one. -/
theorem exchanged_history : SetRevsKeeps {} sampleStore sampleKey sampleRecord [uniformRev 3] :=
  (setRevsKeeps_iff sample_found (sample_success _)).mpr ⟨rfl, Or.inl rfl⟩

end Samples

end BdbRevisions
