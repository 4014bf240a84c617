import Lounge.Storage.BdbRecord

/-!
# What one put does

One inversion lemma for `bdb_la_storage_put`, with the header and layout facts of
the object it stores. Everything later about puts is derived from these.
-/

namespace BdbPut
open FlatMemory ObjectStore BdbDriver BdbRecord

theorem shiftSize_pos {n : BitVec 15} (h : n.toNat ≠ 0) : shiftSize n = 16 * (n.toNat - 1) := by
  simp [shiftSize, h]

theorem shiftSize_zero {n : BitVec 15} (h : n.toNat = 0) : maxCopy ≤ shiftSize n := by
  simp [shiftSize, maxCopy, h]

/-- The number of revisions the stored object carries: one more than the replaced record
has, but at the cap the count the caller's object came with. -/
def pushedCount (header : LaStorageObjectHeader) (obj : LaStorageObject) : BitVec 15 :=
  if header.revCount.toNat < laObjectMaxRevisionCount then header.revCount + 1
  else obj.header.revCount

/-- The header `pushRevision` leaves: numbered after the stored one, with the new count. -/
def pushedHeader (header : LaStorageObjectHeader) (obj : LaStorageObject) :
    LaStorageObjectHeader :=
  { obj.header with docSeq := header.docSeq + 1, revCount := pushedCount header obj }

@[simp] theorem pushedHeader_rev (header : LaStorageObjectHeader) (obj : LaStorageObject) :
    (pushedHeader header obj).rev = obj.header.rev := rfl

@[simp] theorem pushedHeader_deleted (header : LaStorageObjectHeader) (obj : LaStorageObject) :
    (pushedHeader header obj).deleted = obj.header.deleted := rfl

@[simp] theorem pushedHeader_docSeq (header : LaStorageObjectHeader) (obj : LaStorageObject) :
    (pushedHeader header obj).docSeq = header.docSeq + 1 := rfl

@[simp] theorem pushedHeader_revCount (header : LaStorageObjectHeader) (obj : LaStorageObject) :
    (pushedHeader header obj).revCount = pushedCount header obj := rfl

/-- The memory behind the header once the document has moved up, before the history does. -/
def grownData (c : BdbCalls) (header : LaStorageObjectHeader) (obj : LaStorageObject) : Memory :=
  if header.revCount.toNat < laObjectMaxRevisionCount then
    move
      (regrow obj.revsData (min obj.alloc (obj.laStorageObjectTotalSize + 16 - headerSize)) c.heap)
      (obj.dataOffset + 16) obj.dataOffset obj.dataLength.toNat
  else obj.revsData

theorem growObject_cases {c : BdbCalls} {header : LaStorageObjectHeader}
    {obj o : LaStorageObject} (h : growObject c header obj = some o) :
    o.key = obj.key ∧ o.header = pushedHeader header obj ∧ o.dataLength = obj.dataLength ∧
      o.revsData = grownData c header obj := by
  by_cases hcap : header.revCount.toNat < laObjectMaxRevisionCount
  · simp only [growObject, if_pos hcap] at h
    split at h
    · obtain rfl := Option.some.inj h
      exact ⟨rfl, by simp [pushedHeader, pushedCount, hcap], rfl, by simp [grownData, hcap]⟩
    · cases h
  · simp only [growObject, if_neg hcap] at h
    obtain rfl := Option.some.inj h
    exact ⟨rfl, by simp [pushedHeader, pushedCount, hcap], rfl, by simp [grownData, hcap]⟩

theorem growObject_isSome {c : BdbCalls} (ok : c.allocated = true)
    (header : LaStorageObjectHeader) (obj : LaStorageObject) :
    ∃ o, growObject c header obj = some o := by
  by_cases hcap : header.revCount.toNat < laObjectMaxRevisionCount
  · simp only [growObject, if_pos hcap, if_pos ok]
    exact ⟨_, rfl⟩
  · simp only [growObject, if_neg hcap]
    exact ⟨_, rfl⟩

theorem insertRevision_cases {rev : LaStorageRev} {o p : LaStorageObject}
    (h : insertRevision rev o = some p) :
    o.header.revCount.toNat ≠ 0 ∧ p = { o with
      revsData := store (move o.revsData 16 0 (shiftSize o.header.revCount)) 0 rev.rev } := by
  simp only [insertRevision] at h
  split at h
  · cases h
  · rename_i hn
    exact ⟨fun h0 => hn (shiftSize_zero h0), (Option.some.inj h).symm⟩

theorem insertRevision_isSome_iff (rev : LaStorageRev) (o : LaStorageObject) :
    (insertRevision rev o).isSome ↔ o.header.revCount.toNat ≠ 0 := by
  simp only [insertRevision]
  by_cases h0 : o.header.revCount.toNat = 0
  · simp [shiftSize_zero h0, h0]
  · have hn : ¬ maxCopy ≤ shiftSize o.header.revCount := by
      have := o.header.revCount.isLt
      rw [shiftSize_pos h0, maxCopy]
      omega
    simp [hn, h0]

theorem pushRevision_cases {c : BdbCalls} {header : LaStorageObjectHeader}
    {obj p : LaStorageObject} (h : pushRevision c header obj = some p) :
    (pushedCount header obj).toNat ≠ 0 ∧
    p.key = obj.key ∧ p.header = pushedHeader header obj ∧ p.dataLength = obj.dataLength ∧
    p.revsData = store (move (grownData c header obj) 16 0 (shiftSize (pushedCount header obj))) 0
      header.rev.rev := by
  obtain ⟨o, ho, hp⟩ := Option.bind_eq_some_iff.mp h
  obtain ⟨hk, hh, hl, hm⟩ := growObject_cases ho
  obtain ⟨hn, rfl⟩ := insertRevision_cases hp
  have hcount : o.header.revCount = pushedCount header obj := by rw [hh]; rfl
  rw [hcount] at hn
  exact ⟨hn, hk, hh, hl, by rw [← hcount, ← hm]⟩

/-- Without failures `pushRevision` returns unless the count it ends with is zero: then the
history is moved by `(size_t) -16` bytes. -/
theorem pushRevision_isSome_iff {c : BdbCalls} (ok : c.allocated = true)
    (header : LaStorageObjectHeader) (obj : LaStorageObject) :
    (pushRevision c header obj).isSome ↔ (pushedCount header obj).toNat ≠ 0 := by
  obtain ⟨o, ho⟩ := growObject_isSome ok header obj
  have hcount : o.header.revCount = pushedCount header obj := by
    rw [(growObject_cases ho).2.1]
    rfl
  rw [pushRevision, ho, Option.bind_some, insertRevision_isSome_iff, hcount]

/-- The first revision of the new history is the replaced one. -/
theorem pushRevision_first {c : BdbCalls} {header : LaStorageObjectHeader}
    {obj p : LaStorageObject} (h : pushRevision c header obj = some p) :
    revAt p.revsData 0 = header.rev := by
  obtain ⟨_, _, _, _, hm⟩ := pushRevision_cases h
  apply revAt_eq
  rw [hm]
  simpa [header.rev.length_eq] using read_store_self
    (move (grownData c header obj) 16 0 (shiftSize (pushedCount header obj))) 0 header.rev.rev

theorem pushedCount_succ {header : LaStorageObjectHeader}
    (below : header.revCount.toNat < laObjectMaxRevisionCount) (obj : LaStorageObject) :
    (pushedCount header obj).toNat = header.revCount.toNat + 1 := by
  simp only [pushedCount, below, if_true, BitVec.toNat_add]
  rw [laObjectMaxRevisionCount] at below
  simp
  omega

/-- Onto a record without history, a history-free object is laid out correctly. -/
theorem pushRevision_laidOut {c : BdbCalls} {header : LaStorageObjectHeader}
    {obj p : LaStorageObject} {body : List UInt8} (h : pushRevision c header obj = some p)
    (first : header.revCount.toNat = 0) (laid : LaidOut obj [] body)
    (owned : body.length ≤ obj.alloc) :
    LaidOut p [header.rev] body := by
  obtain ⟨_, _, hh, hl, hm⟩ := pushRevision_cases h
  have hcap : header.revCount.toNat < laObjectMaxRevisionCount := by
    rw [first]
    decide
  have hpc : (pushedCount header obj).toNat = 1 := by
    rw [pushedCount_succ hcap, first]
  have hzero : obj.header.revCount.toNat = 0 := laid.counted
  have hlen : obj.dataLength.toNat = body.length := laid.length
  have hshift : shiftSize (pushedCount header obj) = 0 := by
    rw [shiftSize_pos (by omega), hpc]
  -- Nothing but the document moves: one slot up, inside the bytes `realloc` kept.
  have hdata : read p.revsData 16 body.length = body := by
    have hold : read obj.revsData 0 body.length = body := by simpa [revBytes] using laid.content
    have hoff : obj.dataOffset = 0 := by simp [LaStorageObject.dataOffset, hzero]
    have hkept : body.length ≤ min obj.alloc (obj.laStorageObjectTotalSize + 16 - headerSize) := by
      rw [LaStorageObject.laStorageObjectTotalSize, hzero, hlen]
      omega
    rw [hm, read_store_outside (by simp [header.rev.length_eq]), hshift,
      read_move_outside (by omega)]
    simp only [grownData, if_pos hcap, hoff, hlen]
    generalize min obj.alloc (obj.laStorageObjectTotalSize + 16 - headerSize) = kept at hkept ⊢
    have hmove : read (move (regrow obj.revsData kept c.heap) 16 0 body.length) 16 body.length =
        read (regrow obj.revsData kept c.heap) 0 body.length :=
      read_move_inside (o := 0) (by omega)
    rw [Nat.zero_add, hmove, read_regrow (by omega), hold]
  have hfirst : read p.revsData 0 16 = header.rev.rev := by
    have := congrArg LaStorageRev.rev (pushRevision_first h)
    simpa [revAt] using this
  refine ⟨?_, ?_, ?_⟩
  · rw [hh]
    exact hpc
  · rw [hl, hlen]
  · have hsplit : 16 * [header.rev].length + body.length = 16 + body.length := by simp
    rw [hsplit, ← read_append, hfirst, Nat.zero_add, hdata]
    simp [revBytes]

/-- The object a successful put has stored, before it is numbered. -/
inductive Prepared (c : BdbCalls) (s : BdbStore) (rev : Option LaStorageRev)
    (obj : LaStorageObject) : LaStorageObject → Prop
  | created (absent : s.db.lookup obj.key = none) :
      Prepared c s rev obj { obj with header := { obj.header with docSeq := 1, revCount := 0 } }
  | updated (value : List UInt8) (found : s.db.lookup obj.key = some value)
      (base : rev = some (partialHeader c.stack value).rev) (p : LaStorageObject)
      (pushed : pushRevision c (partialHeader c.stack value) obj = some p) :
      Prepared c s rev obj p

theorem Prepared.key {c : BdbCalls} {s : BdbStore} {rev : Option LaStorageRev}
    {obj o : LaStorageObject} (h : Prepared c s rev obj o) : o.key = obj.key := by
  cases h with
  | created => rfl
  | updated value found base p pushed => exact (pushRevision_cases pushed).2.1

theorem Prepared.header {c : BdbCalls} {s : BdbStore} {rev : Option LaStorageRev}
    {obj o : LaStorageObject} (h : Prepared c s rev obj o) :
    o.header.rev = obj.header.rev ∧ o.header.deleted = obj.header.deleted ∧
      o.dataLength = obj.dataLength := by
  cases h with
  | created => exact ⟨rfl, rfl, rfl⟩
  | updated value found base p pushed =>
    obtain ⟨_, _, hh, hl, _⟩ := pushRevision_cases pushed
    exact ⟨by rw [hh, pushedHeader_rev], by rw [hh, pushedHeader_deleted], hl⟩

/-- `obj` with the sequence number the call obtained. -/
def numbered (c : BdbCalls) (s : BdbStore) (obj : LaStorageObject) : LaStorageObject :=
  { obj with header := { obj.header with seq := (seqGet c s).1 } }

/-- The store after a committed write of `obj`. -/
def written (c : BdbCalls) (s : BdbStore) (obj : LaStorageObject) : BdbStore :=
  ⟨s.db.insert obj.key (recordBytes (numbered c s obj)), (seqGet c s).2⟩

/-- A driver call that stored nothing. It may have claimed to, when its commit failed. -/
structure Unstored (c : BdbCalls) (s : BdbStore) (ret : BdbPutReturn) : Prop where
  store : ret.store = s
  ends : ret.txnEnds ≠ [.committed]
  refused : c.Succeed → ret.result = .conflict
  claimed : ret.result = .success → c.txnCommit = false

/-- A driver call that committed `o`. -/
structure Stored (c : BdbCalls) (s : BdbStore) (o : LaStorageObject) (ret : BdbPutReturn) :
    Prop where
  store : ret.store = written c s o
  obj : ret.obj = numbered c s o
  result : ret.result = .success
  ends : ret.txnEnds = [.committed]
  commit : c.txnCommit = true

theorem bdbWrite_cases (c : BdbCalls) (s : BdbStore) (obj : LaStorageObject) :
    Unstored c s (bdbWrite c s obj) ∨ Stored c s obj (bdbWrite c s obj) := by
  cases hp : c.dbPut with
  | false =>
    refine Or.inl ⟨by simp [bdbWrite, hp], by simp [bdbWrite, hp], ?_, by simp [bdbWrite, hp]⟩
    exact fun ok => by simp [ok.dbPut] at hp
  | true =>
    cases hc : c.txnCommit with
    | false =>
      refine Or.inl ⟨by simp [bdbWrite, hp, hc], by simp [bdbWrite, hp, hc], ?_, fun _ => hc⟩
      exact fun ok => by simp [ok.txnCommit] at hc
    | true =>
      refine Or.inr ⟨?_, ?_, ?_, ?_, hc⟩ <;> simp [bdbWrite, hp, hc, numbered, written]

theorem bdbWrite_succeed {c : BdbCalls} (ok : c.Succeed) (s : BdbStore) (obj : LaStorageObject) :
    bdbWrite c s obj = ⟨.success, written c s obj, numbered c s obj, [.committed]⟩ := by
  simp [bdbWrite, ok.dbPut, ok.txnCommit, numbered, written]

/-- How `bdb_la_storage_put` returns: without a transaction, without the stored record, with
another base, or from its common end with `replace`. -/
inductive PutReturns (c : BdbCalls) (s : BdbStore) (rev : Option LaStorageRev)
    (obj : LaStorageObject) : BdbPutReturn → Prop
  | unbegun (begun : c.txnBegin = false) : PutReturns c s rev obj ⟨.error, s, obj, []⟩
  | unread (begun : c.txnBegin = true) (failure : DbGetFailure) (get : c.dbGet = some failure) :
      PutReturns c s rev obj
        ⟨if failure = .lockNotGranted then .conflict else .error, s, obj, [.aborted]⟩
  | conflict (begun : c.txnBegin = true) (get : c.dbGet = none) (value : List UInt8)
      (found : s.db.lookup obj.key = some value)
      (other : rev ≠ some (partialHeader c.stack value).rev) :
      PutReturns c s rev obj ⟨.conflict, s, obj, [.aborted]⟩
  | ended (begun : c.txnBegin = true) (get : c.dbGet = none) (o : LaStorageObject)
      (prepared : Prepared c s rev obj o) : PutReturns c s rev obj (bdbWrite c s o)

theorem bdbLaStoragePut_returns {c : BdbCalls} {s : BdbStore} {rev : Option LaStorageRev}
    {obj : LaStorageObject} {ret : BdbPutReturn} (h : bdbLaStoragePut c s rev obj = some ret) :
    PutReturns c s rev obj ret := by
  simp only [bdbLaStoragePut] at h
  split at h
  · rename_i begun
    cases h
    exact .unbegun (by simpa using begun)
  · rename_i begun
    have begun : c.txnBegin = true := by simpa using begun
    split at h
    · rename_i get
      cases h
      exact .unread begun .lockNotGranted get
    · rename_i get
      cases h
      exact .unread begun .other get
    · rename_i get
      split at h
      · rename_i value found
        split at h
        · rename_i base
          obtain ⟨p, pushed, rfl⟩ := Option.map_eq_some_iff.mp h
          exact .ended begun get p (.updated value found base p pushed)
        · rename_i other
          cases h
          exact .conflict begun get value found other
      · rename_i absent
        cases h
        exact .ended begun get _ (.created absent)

/-- A put that returns either stored nothing or committed a prepared object. -/
theorem bdbLaStoragePut_cases {c : BdbCalls} {s : BdbStore} {rev : Option LaStorageRev}
    {obj : LaStorageObject} {ret : BdbPutReturn} (h : bdbLaStoragePut c s rev obj = some ret) :
    Unstored c s ret ∨ ∃ o, Prepared c s rev obj o ∧ Stored c s o ret := by
  cases bdbLaStoragePut_returns h with
  | unbegun begun =>
    exact Or.inl ⟨rfl, by simp, fun ok => by simp [ok.txnBegin] at begun, by simp⟩
  | unread begun failure get =>
    refine Or.inl ⟨rfl, by simp, fun ok => by simp [ok.dbGet] at get, ?_⟩
    cases failure <;> simp
  | conflict => exact Or.inl ⟨rfl, by simp, fun _ => rfl, by simp⟩
  | ended begun get o prepared =>
    rcases bdbWrite_cases c s o with unstored | stored
    · exact Or.inl unstored
    · exact Or.inr ⟨o, prepared, stored⟩

theorem bdbLaStorageReplace_cases (c : BdbCalls) (s : BdbStore) (obj : LaStorageObject) :
    Unstored c s (bdbLaStorageReplace c s obj) ∨
      Stored c s obj (bdbLaStorageReplace c s obj) := by
  cases hb : c.txnBegin with
  | false =>
    refine Or.inl ⟨?_, ?_, fun ok => by simp [ok.txnBegin] at hb, ?_⟩ <;>
      simp [bdbLaStorageReplace, hb]
  | true => simpa [bdbLaStorageReplace, hb] using bdbWrite_cases c s obj

/-- The calls that a replace depends on succeed. -/
def WritesThrough (c : BdbCalls) : Prop :=
  c.txnBegin = true ∧ c.dbPut = true ∧ c.txnCommit = true

instance (c : BdbCalls) : Decidable (WritesThrough c) := inferInstanceAs (Decidable (_ ∧ _ ∧ _))

theorem bdbLaStorageReplace_fails {c : BdbCalls} (fails : ¬ WritesThrough c) (s : BdbStore)
    (obj : LaStorageObject) : (bdbLaStorageReplace c s obj).store = s := by
  by_cases begun : c.txnBegin = true
  · by_cases put : c.dbPut = true
    · have commit : ¬ c.txnCommit = true := fun commit => fails ⟨begun, put, commit⟩
      simp [bdbLaStorageReplace, bdbWrite, begun, put, commit]
    · simp [bdbLaStorageReplace, bdbWrite, begun, put]
  · simp [bdbLaStorageReplace, begun]

/-- A replace that claims a success and commits went through all of them. -/
theorem writesThrough_of_success {c : BdbCalls} {s : BdbStore} {obj : LaStorageObject}
    (success : (bdbLaStorageReplace c s obj).result = .success) (commit : c.txnCommit = true) :
    WritesThrough c := by
  cases begun : c.txnBegin with
  | false => simp [bdbLaStorageReplace, begun] at success
  | true =>
    cases put : c.dbPut with
    | false => simp [bdbLaStorageReplace, bdbWrite, begun, put] at success
    | true => exact ⟨begun, put, commit⟩

theorem bdbLaStorageReplace_through {c : BdbCalls} (through : WritesThrough c) (s : BdbStore)
    (obj : LaStorageObject) :
    bdbLaStorageReplace c s obj = ⟨.success, written c s obj, numbered c s obj, [.committed]⟩ := by
  obtain ⟨begun, put, commit⟩ := through
  simp [bdbLaStorageReplace, bdbWrite, begun, put, commit, numbered, written]

/-- A put that meets no failure commits whenever it prepares an object. -/
theorem bdbLaStoragePut_prepared {c : BdbCalls} (ok : c.Succeed) {s : BdbStore}
    {rev : Option LaStorageRev} {obj o : LaStorageObject} (h : Prepared c s rev obj o) :
    bdbLaStoragePut c s rev obj =
      some ⟨.success, written c s o, numbered c s o, [.committed]⟩ := by
  cases h with
  | created absent =>
    simp [bdbLaStoragePut, ok.txnBegin, ok.dbGet, absent, bdbWrite_succeed ok]
  | updated value found base p pushed =>
    simp [bdbLaStoragePut, ok.txnBegin, ok.dbGet, found, base, pushed, bdbWrite_succeed ok]

/-- A put on another base than the revision of the record is a conflict. -/
theorem bdbLaStoragePut_conflict {c : BdbCalls} (ok : c.Succeed) {s : BdbStore}
    {rev : Option LaStorageRev} {obj : LaStorageObject} {value : List UInt8}
    (found : s.db.lookup obj.key = some value)
    (base : rev ≠ some (partialHeader c.stack value).rev) :
    bdbLaStoragePut c s rev obj = some ⟨.conflict, s, obj, [.aborted]⟩ := by
  simp [bdbLaStoragePut, ok.txnBegin, ok.dbGet, found, base]

/-- What `la_storage_create_object` makes without a history. -/
theorem createObject_plain {allocated : Bool} {heap : Memory} {key : CString}
    {rev : LaStorageRev} {data : List UInt8} {o : LaStorageObject}
    (small : data.length < 2 ^ 32)
    (h : laStorageCreateObject allocated heap key rev data (UInt32.ofNat data.length) none 0 =
      some (some o)) :
    o.key = key ∧ o.header = ⟨0, 0, false, 0, rev⟩ ∧ LaidOut o [] data ∧
      o.alloc = data.length := by
  have hlen : (UInt32.ofNat data.length).toNat = data.length := by
    simp only [UInt32.toNat_ofNat']
    exact Nat.mod_eq_of_lt small
  have halloc : (data.length + 0 * 16) % 2 ^ 64 = data.length := Nat.mod_eq_of_lt (by omega)
  simp only [laStorageCreateObject] at h
  split at h
  · simp at h
  · obtain rfl := Option.some.inj (Option.some.inj h)
    refine ⟨rfl, rfl, ⟨rfl, hlen, ?_⟩, ?_⟩
    · simp only [hlen, List.take_length, List.length_nil, Nat.mul_zero, Nat.zero_add]
      exact read_store_self _ 0 data
    · simp only [hlen, halloc]

/-- What it makes with one. -/
theorem createObject_history {allocated : Bool} {heap : Memory} {key : CString}
    {rev : LaStorageRev} {data : List UInt8} {history : List LaStorageRev} {o : LaStorageObject}
    (small : data.length < 2 ^ 32) (few : history.length < 2 ^ 15)
    (h : laStorageCreateObject allocated heap key rev data (UInt32.ofNat data.length)
      (some history) history.length = some (some o)) :
    o.key = key ∧ o.header.rev = rev ∧ LaidOut o history data := by
  have hlen : (UInt32.ofNat data.length).toNat = data.length := by
    simp only [UInt32.toNat_ofNat']
    exact Nat.mod_eq_of_lt small
  have hcount : (BitVec.ofNat 15 history.length).toNat = history.length := by
    simp only [BitVec.toNat_ofNat]
    exact Nat.mod_eq_of_lt few
  simp only [laStorageCreateObject] at h
  split at h
  · simp at h
  · split at h
    · cases h
    · obtain rfl := Option.some.inj (Option.some.inj h)
      refine ⟨rfl, rfl, hcount, hlen, ?_⟩
      simp only [hcount, hlen, List.take_length]
      -- The document is stored behind the history.
      have revs : history.flatMap LaStorageRev.rev = revBytes history := rfl
      rw [← read_append, Nat.zero_add, read_store_outside (by omega), read_store_self, revs,
        ← length_revBytes, read_store_self]

/-- What it makes of revisions that were all given. -/
theorem createObject_laidOut {allocated : Bool} {heap : Memory} {key : CString}
    {rev : LaStorageRev} {data : List UInt8} {oldrevs : Option (List LaStorageRev)}
    {revcount : Nat} {o : LaStorageObject} (small : data.length < 2 ^ 32)
    (given : revcount = (oldrevs.getD []).length) (few : revcount < 2 ^ 15)
    (h : laStorageCreateObject allocated heap key rev data (UInt32.ofNat data.length) oldrevs
      revcount = some (some o)) :
    o.key = key ∧ o.header.rev = rev ∧ LaidOut o (oldrevs.getD []) data := by
  subst given
  cases oldrevs with
  | none =>
    obtain ⟨name, header, laid, -⟩ := createObject_plain small h
    exact ⟨name, by rw [header], laid⟩
  | some history => exact createObject_history small few h

/-- The record that an accepted put leaves, if it fits: the new revision, and behind it in
the history the one that was replaced. -/
theorem Prepared.record {c : BdbCalls} {s : BdbStore} {rev : Option LaStorageRev}
    {obj p : LaStorageObject} (h : Prepared c s rev obj p)
    (plain : obj.header.revCount.toNat = 0)
    (fits : headerSize + 16 * laObjectMaxRevisionCount + obj.dataLength.toNat < 2 ^ 32) :
    ∃ d : DocRecord, (written c s p).db = s.db.insert obj.key d.bytes ∧
      d.header = (numbered c s p).header ∧
      ∀ value, s.db.lookup obj.key = some value →
        rev = some (partialHeader c.stack value).rev ∧
          (partialHeader c.stack value).rev ∈ d.history := by
  have size : p.laStorageObjectTotalSize < 2 ^ 32 := by
    have count : p.header.revCount.toNat ≤ laObjectMaxRevisionCount := by
      cases h with
      | created => simp
      | updated value found base _ pushed =>
        obtain ⟨_, _, hh, _, _⟩ := pushRevision_cases pushed
        rw [hh, pushedHeader_revCount]
        by_cases below :
            (partialHeader c.stack value).revCount.toNat < laObjectMaxRevisionCount
        · rw [pushedCount_succ below]
          omega
        · rw [pushedCount, if_neg below, plain]
          exact Nat.zero_le _
    have length := h.header.2.2
    rw [LaStorageObject.laStorageObjectTotalSize, length]
    omega
  refine ⟨recordOf (numbered c s p) size, ?_, rfl, ?_⟩
  · rw [← h.key]
    exact congrArg (s.db.insert p.key) (recordBytes_recordOf (numbered c s p) size)
  · intro value found
    cases h with
    | created absent => simp [absent] at found
    | updated value' found' base _ pushed =>
      rw [found'] at found
      obtain rfl := Option.some.inj found
      refine ⟨base, ?_⟩
      obtain ⟨some_, _, hh, _, _⟩ := pushRevision_cases pushed
      have count : (numbered c s p).header.revCount.toNat =
          (pushedCount (partialHeader c.stack value') obj).toNat := by
        simp only [numbered, hh, pushedHeader_revCount]
      have first : revAt (numbered c s p).revsData 0 = (partialHeader c.stack value').rev := by
        simpa only [numbered] using pushRevision_first pushed
      simp only [recordOf, revsAt, List.mem_map, List.mem_range]
      exact ⟨0, by omega, by simpa using first⟩

end BdbPut
