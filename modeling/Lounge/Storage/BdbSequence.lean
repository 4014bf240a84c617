import Lounge.Lib.Recency
import Lounge.Storage.BdbAtomicity
import Lounge.Storage.BdbCommits
import Lounge.Storage.ObjectIteration

/-!
# Sequence numbers over whole runs

Every write takes the next number of the store's sequence, and the secondary index is
sorted by the numbers stored, so a walk along it visits the documents in the order of
their last writes. Keys that look empty are left out of the index.
-/

namespace BdbSequence
open FlatMemory LittleEndian ObjectStore BdbDriver BdbRecord BdbPut BdbCommits BdbAtomicity Runs
open Recency ObjectIteration

inductive WriteKind where
  | put (rev : Option LaStorageRev)
  | replace

/-- A call of `bdb_la_storage_put` or `bdb_la_storage_replace`. -/
structure Write where
  calls : BdbCalls
  kind : WriteKind
  obj : LaStorageObject

def Write.call (w : Write) : WriteCall :=
  match w.kind with
  | .put rev => .put rev w.obj
  | .replace => .replace w.obj

/-- A call that traps ends its client and leaves the store to the others. -/
def writeStep (s : BdbStore) (w : Write) : Option LaStorageObjectPutResult × BdbStore :=
  match perform w.calls s w.call with
  | none => (none, s)
  | some ret => (some ret.result, ret.store)

abbrev WriteEvent := Event BdbStore Write (Option LaStorageObjectPutResult)

def wrote (e : WriteEvent) : Bool := e.output == some .success

/-- The successful writes of a run. -/
def writes (s : BdbStore) (ws : List Write) : List WriteEvent :=
  (events writeStep s ws).filter wrote

/-- The number in the record that the call left for its key. -/
def storedSeq (e : WriteEvent) : Option Nat :=
  (e.after.db.lookup e.input.obj.key).map seqOf

/-- The keys written, each at the place of its last successful write. -/
def lastWrites (order : List CString) (e : WriteEvent) : List CString :=
  if wrote e then touch order e.input.obj.key else order

section Iteration
variable (heap : CString → Memory)

/-- Iterating from the start yields the documents of these keys, in this order. -/
def Yields (s : BdbStore) (since : UInt64) (keys : List CString) : Prop :=
  ∃ it objs, bdbLaStorageIteratorOpen s since = some it ∧
    Iterates (bdbLaStorageIteratorNext heap) it objs .iterEnd ∧
    objs.map LaStorageObject.key = keys ∧
    ∀ o ∈ objs, ∃ value, s.db.lookup o.key = some value ∧
      o = objectOfValue (heap o.key) o.key value

/-- What the sequence promises of a run on a fresh store. -/
structure SeqOrdered (ws : List Write) : Prop where
  increasing : ∃ seqs : List Nat,
    (writes bdbEmpty ws).map storedSeq = seqs.map some ∧ seqs.Pairwise (· < ·)
  distinct : ∀ k k' v v', (final writeStep bdbEmpty ws).db.lookup k = some v →
    (final writeStep bdbEmpty ws).db.lookup k' = some v' → k ≠ k' → seqOf v ≠ seqOf v'
  yields : Yields heap (final writeStep bdbEmpty ws) 0
    (replay lastWrites [] (events writeStep bdbEmpty ws))
  everyOnce : (replay lastWrites [] (events writeStep bdbEmpty ws)).Nodup ∧
    ∀ key, key ∈ replay lastWrites [] (events writeStep bdbEmpty ws) ↔
      ((final writeStep bdbEmpty ws).db.lookup key).isSome
  internal : ∀ e ∈ seqDb (final writeStep bdbEmpty ws), e.1 ≠ seqName

end Iteration

/-- The size of the record that the call is about to write. -/
def Write.size (s : BdbStore) (w : Write) : Nat :=
  match w.kind with
  | .put rev => recordSize s ⟨0, w.calls, rev, w.obj⟩
  | .replace => w.obj.laStorageObjectTotalSize

/-- A call that gets to put its record commits it, under a key that is not empty, with a size
that still has the number in it when it is cut to the 32 bits of a DBT. -/
def Indexable (e : WriteEvent) : Prop :=
  e.input.call.reaches e.input.calls e.before = true →
  e.input.call.resizes e.input.calls e.before = true → e.input.calls.dbPut = true →
    e.input.calls.txnCommit = true ∧ e.input.obj.key.bytes ≠ [] ∧
      8 ≤ e.input.size e.before % 2 ^ 32

/-- `bdb_la_storage_put` claims a success only after `db->put`. -/
theorem put_success_reaches {c : BdbCalls} {s : BdbStore} {rev : Option LaStorageRev}
    {obj : LaStorageObject} {ret : BdbPutReturn} (h : bdbLaStoragePut c s rev obj = some ret)
    (success : ret.result = .success) :
    (WriteCall.put rev obj).reaches c s = true ∧ (WriteCall.put rev obj).resizes c s = true ∧
      c.dbPut = true := by
  have put : ∀ o, (bdbWrite c s o).result = .success → c.dbPut = true := by
    intro o
    cases hp : c.dbPut <;> simp [bdbWrite, hp]
  cases bdbLaStoragePut_returns h with
  | unbegun => cases success
  | unread begun failure => cases failure <;> cases success
  | conflict => cases success
  | ended begun get o prepared =>
    have dbPut := put o success
    cases prepared with
    | created absent =>
      refine ⟨?_, ?_, dbPut⟩
      · simp [WriteCall.reaches, begun, get, absent]
      · simp [WriteCall.resizes, WriteCall.replaces, absent]
    | updated value found base p pushed =>
      subst base
      refine ⟨?_, ?_, dbPut⟩
      · simp [WriteCall.reaches, WriteCall.replaces, begun, get, found]
      · exact (pushRevision_isSome_resizes c s found).mp (by simp [pushed])

/-- A call that comes to a write past the end of a block leaves the store, any other one does what
it does in a heap without bounds. -/
theorem writeStep_inside (s : BdbStore) (w : Write) :
    writeStep s w = (none, s) ∨ writeStep s w = (outcome w.calls s w.call).elim (none, s)
      fun ret => (some ret.result, ret.store) := by
  rw [writeStep, perform]
  cases w.call.overruns w.calls s with
  | true => exact Or.inl rfl
  | false =>
    right
    cases outcome w.calls s w.call <;> rfl

/-- A call with an indexable write either left the store alone and claims nothing, or stored
a record of the size foretold. -/
theorem writeStep_cases {s : BdbStore} {w : Write} (fair : Indexable (event writeStep s w)) :
    (wrote (event writeStep s w) = false ∧ (writeStep s w).2 = s) ∨
      (wrote (event writeStep s w) = true ∧ w.obj.key.bytes ≠ [] ∧
        ∃ o : LaStorageObject, (writeStep s w).2 = written w.calls s o ∧ o.key = w.obj.key ∧
          8 ≤ o.laStorageObjectTotalSize % 2 ^ 32) := by
  rcases writeStep_inside s w with crashed | step
  · exact Or.inl ⟨by simp [wrote, event, crashed], by rw [crashed]⟩
  obtain ⟨calls, kind, obj⟩ := w
  cases kind with
  | put rev =>
    cases hret : bdbLaStoragePut calls s rev obj with
    | none =>
      refine Or.inl ⟨?_, ?_⟩ <;> simp [wrote, event, step, Write.call, outcome, hret]
    | some ret =>
      rcases bdbLaStoragePut_cases hret with unstored | ⟨o, prepared, stored⟩
      · have stays : (writeStep s ⟨calls, .put rev, obj⟩).2 = s := by
          simp [step, Write.call, outcome, hret, unstored.store]
        refine Or.inl ⟨?_, stays⟩
        by_contra claims
        have success : ret.result = .success := by
          simpa [wrote, event, step, Write.call, outcome, hret] using claims
        obtain ⟨reaches, resizes, put⟩ := put_success_reaches hret success
        have commit := (fair reaches resizes put).1
        simp [event, unstored.claimed success] at commit
      · obtain ⟨reaches, resizes, put⟩ := put_success_reaches hret stored.result
        obtain ⟨-, named, covers⟩ := fair reaches resizes put
        have size := (prepared_size (p := ⟨0, calls, rev, obj⟩) prepared).2
        refine Or.inr ⟨?_, named, o, ?_, prepared.key, ?_⟩
        · simp [wrote, event, step, Write.call, outcome, hret, stored.result]
        · simp [step, Write.call, outcome, hret, stored.store]
        · rw [size]
          exact covers
  | replace =>
    have same : (bdbLaStorageReplace calls s obj).result = .success →
        (WriteCall.replace obj).reaches calls s = true ∧ calls.dbPut = true := by
      cases hb : calls.txnBegin <;> cases hp : calls.dbPut <;>
        simp [bdbLaStorageReplace, bdbWrite, WriteCall.reaches, hb, hp]
    rcases bdbLaStorageReplace_cases calls s obj with unstored | stored
    · refine Or.inl ⟨?_, ?_⟩
      · by_contra claims
        have success : (bdbLaStorageReplace calls s obj).result = .success := by
          simpa [wrote, event, step, Write.call, outcome] using claims
        obtain ⟨reaches, put⟩ := same success
        have commit := (fair reaches rfl put).1
        simp [event, unstored.claimed success] at commit
      · simp [step, Write.call, outcome, unstored.store]
    · obtain ⟨reaches, put⟩ := same stored.result
      obtain ⟨-, named, covers⟩ := fair reaches rfl put
      refine Or.inr ⟨?_, named, obj, ?_, rfl, covers⟩
      · simp [wrote, event, step, Write.call, outcome, stored.result]
      · simp [step, Write.call, outcome, stored.store]

/-- The number stored for a key, 0 if there is none. -/
def seqAt (s : BdbStore) (key : CString) : Nat := ((s.db.lookup key).map seqOf).getD 0

/-- The keys of the store in the order of their numbers, all of them handed out. -/
structure Ranked (s : BdbStore) (order : List CString) : Prop where
  stored : ∀ key, key ∈ order ↔ (s.db.lookup key).isSome
  named : ∀ key ∈ order, key.bytes ≠ []
  sorted : order.Pairwise fun a b => seqAt s a < seqAt s b
  below : ∀ key ∈ order, seqAt s key < s.seqNext

theorem ranked_empty : Ranked bdbEmpty [] := by
  refine ⟨fun key => ?_, nofun, .nil, nofun⟩
  simp [bdbEmpty]

/-- The number of a record is the beginning of what its object carries. -/
theorem take_recordBytes (obj : LaStorageObject) :
    (recordBytes obj).take 8 =
      (bytesLE 8 obj.header.seq.toNat).take (obj.laStorageObjectTotalSize % 2 ^ 32) := by
  rw [recordBytes]
  generalize obj.laStorageObjectTotalSize % 2 ^ 32 = size
  have head : ∀ rest, (obj.header.bytes ++ rest).take 8 = bytesLE 8 obj.header.seq.toNat := by
    intro rest
    rw [LaStorageObjectHeader.bytes, List.append_assoc, List.append_assoc, List.append_assoc]
    exact List.take_left' (by simp)
  rw [List.take_take, Nat.min_comm, ← List.take_take, head]

theorem natLE_seq (seq : UInt64) : natLE (bytesLE 8 seq.toNat) = seq.toNat := by
  have := seq.toNat_lt
  exact natLE_bytesLE_of_lt (by omega)

theorem seqOf_recordBytes (obj : LaStorageObject)
    (covers : 8 ≤ obj.laStorageObjectTotalSize % 2 ^ 32) :
    seqOf (recordBytes obj) = obj.header.seq.toNat := by
  rw [seqOf, take_recordBytes, List.take_of_length_le (by simpa using covers), natLE_seq]

/-- A document's record holds its number. -/
theorem covers_docRecord {o : LaStorageObject} {d : DocRecord} (same : recordBytes o = d.bytes) :
    8 ≤ o.laStorageObjectTotalSize % 2 ^ 32 := by
  have whole : (recordBytes o).length ≤ o.laStorageObjectTotalSize % 2 ^ 32 := by
    rw [recordBytes]
    exact List.length_take_le _ _
  rw [same, d.length_bytes] at whole
  have size : 8 ≤ headerSize := by decide
  omega

theorem written_lookup (c : BdbCalls) (s : BdbStore) (o : LaStorageObject) :
    (written c s o).db.lookup o.key = some (recordBytes (numbered c s o)) :=
  AList.lookup_insert s.db

theorem written_lookup_ne (c : BdbCalls) (s : BdbStore) {o : LaStorageObject} {key : CString}
    (other : key ≠ o.key) : (written c s o).db.lookup key = s.db.lookup key :=
  AList.lookup_insert_ne other

/-- A write stores the number that was next. -/
theorem written_seq {c : BdbCalls} {s : BdbStore} {o : LaStorageObject} (seq : SeqObtained c s)
    (covers : 8 ≤ o.laStorageObjectTotalSize % 2 ^ 32) :
    seqOf (recordBytes (numbered c s o)) = s.seqNext ∧
      (written c s o).seqNext = s.seqNext + 1 := by
  have next := seqGet_next seq.1 seq.2
  have room := seq.2
  rw [seqMax] at room
  constructor
  · rw [seqOf_recordBytes (numbered c s o) covers]
    simp only [numbered, next, UInt64.toNat_ofNat']
    exact Nat.mod_eq_of_lt (by omega)
  · simp [written, next]

theorem ranked_written {c : BdbCalls} {s : BdbStore} {o : LaStorageObject}
    {order : List CString} (ranked : Ranked s order) (seq : SeqObtained c s)
    (named : o.key.bytes ≠ []) (covers : 8 ≤ o.laStorageObjectTotalSize % 2 ^ 32) :
    Ranked (written c s o) (touch order o.key) := by
  obtain ⟨number, next⟩ := written_seq seq covers
  have new : seqAt (written c s o) o.key = s.seqNext := by
    simp [seqAt, written_lookup, number]
  have old : ∀ k, k ≠ o.key → seqAt (written c s o) k = seqAt s k := by
    intro k other
    simp [seqAt, written_lookup_ne c s other]
  constructor
  · intro key
    rw [mem_touch]
    by_cases same : key = o.key
    · subst same
      simp [written_lookup]
    · simp [same, written_lookup_ne c s same, ranked.stored]
  · intro key hkey
    rcases mem_touch.mp hkey with rfl | hkey
    · exact named
    · exact ranked.named key hkey
  · exact pairwise_touch ranked.sorted old fun k hk => new ▸ ranked.below k hk
  · intro key hkey
    rw [next]
    by_cases same : key = o.key
    · rw [same, new]
      exact Nat.lt_succ_self _
    · have hkey := (mem_touch.mp hkey).resolve_left same
      rw [old key same]
      exact Nat.lt_succ_of_lt (ranked.below key hkey)

/-- What the secondary index shows of a key. -/
def entryAt (s : BdbStore) (key : CString) : Option (List UInt8 × List UInt8) :=
  (s.db.lookup key).map fun value => (key.bytes, value)

theorem indexed_key {key : CString} (named : key.bytes ≠ []) : indexed key.bytes = true := by
  obtain ⟨bytes, noNul⟩ := key
  cases bytes with
  | nil => exact absurd rfl named
  | cons b rest =>
    have : b ≠ 0 := fun h => noNul (h ▸ List.mem_cons_self)
    simp [indexed, this]

/-- Where every key is indexed, the index is the primary database without the sequence record. -/
theorem primary_indexed {s : BdbStore} {order : List CString} (ranked : Ranked s order) :
    (bdbPrimary s).filter (fun e => indexed e.1) =
      s.db.entries.map fun e => (e.1.bytes, e.2) := by
  have internal : indexed seqName = false := rfl
  rw [bdbPrimary, List.filter_cons_of_neg (by simp [internal]), List.filter_eq_self]
  intro e he
  obtain ⟨entry, hentry, rfl⟩ := List.mem_map.mp he
  have found : s.db.lookup entry.1 = some entry.2 := AList.mem_lookup_iff.mpr hentry
  exact indexed_key (ranked.named _ ((ranked.stored _).mpr (by simp [found])))

/-- The index lists the records in the order of their numbers. -/
theorem seqDb_ranked {s : BdbStore} {order : List CString} (ranked : Ranked s order) :
    seqDb s = order.filterMap (entryAt s) := by
  rw [seqDb, primary_indexed ranked]
  refine insertionSort_eq (f := fun e : List UInt8 × List UInt8 => seqOf e.2) ?_ ?_ ?_
  · refine List.Nodup.map ?_ s.db.nodupKeys.nodup
    rintro ⟨k, v⟩ ⟨k', v'⟩ same
    simp only [Prod.mk.injEq] at same
    obtain ⟨hk, rfl⟩ := same
    obtain rfl := CString.ext hk
    rfl
  · rw [List.pairwise_filterMap]
    refine ranked.sorted.imp fun {a b} lt e he e' he' => ?_
    obtain ⟨v, hv, rfl⟩ := Option.map_eq_some_iff.mp he
    obtain ⟨v', hv', rfl⟩ := Option.map_eq_some_iff.mp he'
    simpa [seqAt, hv, hv'] using lt
  · intro e
    constructor
    · intro he
      obtain ⟨⟨key, value⟩, hentry, rfl⟩ := List.mem_map.mp he
      have found : s.db.lookup key = some value := AList.mem_lookup_iff.mpr hentry
      refine List.mem_filterMap.mpr ⟨key, (ranked.stored key).mpr (by simp [found]), ?_⟩
      simp [entryAt, found]
    · intro he
      obtain ⟨key, -, found⟩ := List.mem_filterMap.mp he
      obtain ⟨value, hv, rfl⟩ := Option.map_eq_some_iff.mp found
      exact List.mem_map.mpr ⟨⟨key, value⟩, AList.mem_lookup_iff.mp hv, rfl⟩

/-- The iterator in front of these entries. -/
def entryCursor (es : List (List UInt8 × List UInt8)) : LaStorageObjectIterator := ⟨es.map some⟩

theorem iterates_entries (heap : CString → Memory) (es : List (List UInt8 × List UInt8)) :
    Iterates (bdbLaStorageIteratorNext heap) (entryCursor es) (es.map (entryObject heap))
      .iterEnd :=
  iterates_cursor entryCursor (entryObject heap) rfl (fun _ _ => rfl) es

/-- A cursor in front of the entries of stored keys yields their documents. -/
theorem iterates_keys (heap : CString → Memory) {s : BdbStore} {keys : List CString}
    (stored : ∀ key ∈ keys, (s.db.lookup key).isSome) :
    ∃ objs, Iterates (bdbLaStorageIteratorNext heap) (entryCursor (keys.filterMap (entryAt s)))
        objs .iterEnd ∧
      objs.map LaStorageObject.key = keys ∧
      ∀ o ∈ objs, ∃ value, s.db.lookup o.key = some value ∧
        o = objectOfValue (heap o.key) o.key value := by
  refine ⟨_, iterates_entries heap _, ?_, ?_⟩
  · have each : ∀ key ∈ keys, (entryAt s key).map (fun e => (entryObject heap e).key) =
        some key := by
      intro key hkey
      obtain ⟨value, found⟩ := Option.isSome_iff_exists.mp (stored key hkey)
      simp [entryAt, found, entryObject, objectOfValue, keycpy, CString.ofBytes_bytes]
    calc ((keys.filterMap (entryAt s)).map (entryObject heap)).map LaStorageObject.key
      _ = keys.filterMap fun key => (entryAt s key).map fun e => (entryObject heap e).key := by
          rw [List.map_map, List.map_filterMap]
          rfl
      _ = keys.filterMap some := List.filterMap_congr each
      _ = keys := List.filterMap_some
  · intro o ho
    obtain ⟨e, he, rfl⟩ := List.mem_map.mp ho
    obtain ⟨key, -, found⟩ := List.mem_filterMap.mp he
    obtain ⟨value, hv, rfl⟩ := Option.map_eq_some_iff.mp found
    have copied : keycpy key.bytes = key := CString.ofBytes_bytes key
    rw [entryObject, copied]
    exact ⟨value, hv, rfl⟩

theorem yields_ranked (heap : CString → Memory) {s : BdbStore} {order : List CString}
    (ranked : Ranked s order) : Yields heap s 0 order := by
  obtain ⟨objs, walk, keys, records⟩ :=
    iterates_keys heap fun key hkey => (ranked.stored key).mp hkey
  refine ⟨⟨(seqDb s).map some⟩, objs, by simp [bdbLaStorageIteratorOpen], ?_, keys, records⟩
  rw [seqDb_ranked ranked]
  exact walk

/-- The events of a run that the index copes with. -/
def Fair (e : WriteEvent) : Prop := SeqObtained e.input.calls e.before ∧ Indexable e

theorem writeStep_ranked {s : BdbStore} {order : List CString} {w : Write}
    (ranked : Ranked s order) (fair : Fair (event writeStep s w)) :
    Ranked (writeStep s w).2 (lastWrites order (event writeStep s w)) := by
  rcases writeStep_cases fair.2 with ⟨refused, same⟩ | ⟨success, named, o, after, key, covers⟩
  · rw [same, lastWrites, refused]
    exact ranked
  · rw [after, lastWrites, success, if_pos rfl]
    have := ranked_written ranked fair.1 (key ▸ named) covers
    rwa [key] at this

/-- A successful write stores the number that was next and moves the sequence on. -/
theorem writeStep_storedSeq {s : BdbStore} {w : Write} (fair : Fair (event writeStep s w))
    (success : wrote (event writeStep s w) = true) :
    storedSeq (event writeStep s w) = some s.seqNext ∧
      (writeStep s w).2.seqNext = s.seqNext + 1 := by
  rcases writeStep_cases fair.2 with ⟨refused, -⟩ | ⟨-, -, o, after, key, covers⟩
  · rw [refused] at success
    cases success
  · have obtained : SeqObtained w.calls s := fair.1
    obtain ⟨number, next⟩ := written_seq obtained covers
    refine ⟨?_, by rw [after, next]⟩
    rw [storedSeq, event, after, ← key, written_lookup, Option.map_some, number]

theorem writeStep_seqNext {s : BdbStore} {w : Write} (fair : Fair (event writeStep s w)) :
    s.seqNext ≤ (writeStep s w).2.seqNext := by
  cases success : wrote (event writeStep s w) with
  | true => exact (writeStep_storedSeq fair success).2 ▸ Nat.le_succ _
  | false =>
    rcases writeStep_cases fair.2 with ⟨-, same⟩ | ⟨claims, -⟩
    · rw [same]
    · rw [claims] at success
      cases success

/-- The numbers that a run stores grow from one successful write to the next. -/
theorem writes_increasing {s : BdbStore} {ws : List Write}
    (fair : ∀ e ∈ events writeStep s ws, Fair e) :
    ∃ seqs : List Nat, (writes s ws).map storedSeq = seqs.map some ∧ seqs.Pairwise (· < ·) := by
  refine ⟨(writes s ws).map fun e => e.before.seqNext, ?_, ?_⟩
  · rw [List.map_map]
    refine List.map_congr_left fun e he => ?_
    obtain ⟨hmem, success⟩ := List.mem_filter.mp he
    have step := event_of_mem hmem
    have he := fair e hmem
    rw [step] at he success ⊢
    exact (writeStep_storedSeq he success).1
  · rw [List.pairwise_map]
    refine (increasing (fun s => s.seqNext) wrote ?_ ?_ fair).2
    · exact fun s w fair => writeStep_seqNext fair
    · exact fun s w fair success => (writeStep_storedSeq fair success).2 ▸ Nat.lt_succ_self _

theorem Ranked.distinct {s : BdbStore} {order : List CString} (ranked : Ranked s order)
    {k k' : CString} {v v' : List UInt8} (found : s.db.lookup k = some v)
    (found' : s.db.lookup k' = some v') (ne : k ≠ k') : seqOf v ≠ seqOf v' := by
  have symm : Std.Symm fun a b => seqAt s a ≠ seqAt s b := ⟨fun _ _ h => h.symm⟩
  have apart : order.Pairwise fun a b => seqAt s a ≠ seqAt s b := ranked.sorted.imp ne_of_lt
  have := apart.forall ((ranked.stored k).mpr (by simp [found]))
    ((ranked.stored k').mpr (by simp [found'])) ne
  simpa [seqAt, found, found'] using this

/-- As long as every record put is indexable, the numbers grow and the index lists the
documents in the order of their last writes. -/
theorem writes_seqOrdered (heap : CString → Memory) (ws : List Write)
    (obtained : ∀ e ∈ events writeStep bdbEmpty ws, SeqObtained e.input.calls e.before)
    (indexable : ∀ e ∈ events writeStep bdbEmpty ws, Indexable e) : SeqOrdered heap ws := by
  have fair : ∀ e ∈ events writeStep bdbEmpty ws, Fair e :=
    fun e he => ⟨obtained e he, indexable e he⟩
  have ranked := simulated Ranked (fun _ _ _ => writeStep_ranked) ranked_empty fair
  constructor
  · exact writes_increasing fair
  · exact fun k k' v v' => ranked.distinct
  · exact yields_ranked heap ranked
  · exact ⟨nodup_of_pairwise ranked.sorted, ranked.stored⟩
  · intro e he internal
    rw [seqDb, List.mem_insertionSort, List.mem_filter, internal] at he
    exact absurd he.2 (by decide)

section EmptyKey

private def emptyObject (key : List UInt8) : LaStorageObject :=
  ⟨.ofBytes key, ⟨0, 0, false, 0, uniformRev 1⟩, fun _ => 0, 0, 0⟩

/-- Two documents, the first written again after the second. -/
theorem writes_seqOrdered_two :
    SeqOrdered (fun _ _ => 0) [⟨{}, .put none, emptyObject [97]⟩,
      ⟨{}, .put none, emptyObject [98]⟩, ⟨{}, .replace, emptyObject [97]⟩] := by
  refine writes_seqOrdered _ _ ?_ ?_
  · intro e he
    simp only [events, List.mem_cons, List.not_mem_nil, or_false] at he
    rcases he with rfl | rfl | rfl <;> exact ⟨rfl, by decide +kernel⟩
  · intro e he _ _ _
    simp only [events, List.mem_cons, List.not_mem_nil, or_false] at he
    rcases he with rfl | rfl | rfl <;> decide +kernel

/-- A document under the empty key is stored with a number and never iterated. -/
theorem empty_key_not_iterated :
    (∀ e ∈ events writeStep bdbEmpty [⟨{}, .put none, emptyObject []⟩],
      SeqObtained e.input.calls e.before) ∧
    ¬SeqOrdered (fun _ _ => 0) [⟨{}, .put none, emptyObject []⟩] := by
  constructor
  · intro e he
    simp only [events, List.mem_cons, List.not_mem_nil, or_false] at he
    subst he
    exact ⟨rfl, by decide⟩
  · intro ordered
    obtain ⟨it, objs, opened, walk, keys, -⟩ := ordered.yields
    have cursor : bdbLaStorageIteratorOpen (final writeStep bdbEmpty
        [⟨{}, .put none, emptyObject []⟩]) 0 = some ⟨[]⟩ := by
      have empty : seqDb (final writeStep bdbEmpty [⟨{}, .put none, emptyObject []⟩]) = [] := by
        decide +kernel
      simp [bdbLaStorageIteratorOpen, empty]
    obtain rfl := Option.some.inj (cursor.symm.trans opened)
    have one : (replay lastWrites [] (events writeStep bdbEmpty
        [⟨{}, .put none, emptyObject []⟩])).length = 1 := by decide +kernel
    cases walk with
    | stop =>
      rw [← keys] at one
      cases one
    | more next => cases next

end EmptyKey

end BdbSequence
