import Lounge.Storage.BdbSequence

/-!
# The change feed of Berkeley DB

`lastseq` is the number that the next write takes. Only that write leaves a record under it,
so an iterator opened there is on a record written since, and begins behind it.
-/

namespace BdbFeed
open FlatMemory LittleEndian ObjectStore BdbDriver BdbRecord BdbPut BdbCommits BdbAtomicity
  BdbSequence
open ObjectIteration Runs

/-- The keys of the successful writes of a run. -/
def keysWritten (s : BdbStore) (ws : List Write) : List CString :=
  (writes s ws).map fun e => e.input.obj.key

/-- What was written since `lastseq` is what an iterator opened at it yields. -/
def BdbFeeds (heap : CString → Memory) (before since : List Write) : Prop :=
  let s := final writeStep bdbEmpty before
  Feeds (bdbLaStorageIteratorNext heap)
    (bdbLaStorageIteratorOpen (final writeStep s since) (bdbLaStorageLastseq true s))
    (keysWritten s since)

/-- A number cut to the size of its record only gets smaller. -/
theorem seqOf_recordBytes_le (obj : LaStorageObject) :
    seqOf (recordBytes obj) ≤ obj.header.seq.toNat := by
  rw [seqOf, take_recordBytes]
  exact (natLE_take_le _ _).trans_eq (natLE_seq _)

/-- Every stored number has been handed out. -/
structure Allotted (s : BdbStore) : Prop where
  handedOut : ∀ key value, s.db.lookup key = some value → seqOf value < s.seqNext
  positive : 0 < s.seqNext
  bounded : s.seqNext ≤ 2 ^ 63

theorem allotted_empty : Allotted bdbEmpty := ⟨nofun, by decide, by decide⟩

theorem allotted_written {c : BdbCalls} {s : BdbStore} (o : LaStorageObject)
    (allotted : Allotted s) (seq : SeqObtained c s) : Allotted (written c s o) := by
  have room := seq.2
  rw [seqMax] at room
  have next := seqGet_next seq.1 seq.2
  have number : seqOf (recordBytes (numbered c s o)) ≤ s.seqNext := by
    have below := seqOf_recordBytes_le (numbered c s o)
    have taken : (numbered c s o).header.seq.toNat = s.seqNext := by
      simp only [numbered, next, UInt64.toNat_ofNat']
      exact Nat.mod_eq_of_lt (by omega)
    rwa [taken] at below
  have moved : (written c s o).seqNext = s.seqNext + 1 := by simp [written, next]
  refine ⟨fun key value found => ?_, ?_, ?_⟩
  · rw [moved]
    by_cases same : key = o.key
    · rw [same, written_lookup] at found
      cases found
      exact Nat.lt_succ_of_le number
    · rw [written_lookup_ne c s same] at found
      exact Nat.lt_succ_of_lt (allotted.handedOut key value found)
  · rw [moved]
    exact Nat.succ_pos _
  · rw [moved]
    omega

/-- A call that changed the store wrote one record and says so. -/
theorem writeStep_changed (s : BdbStore) (w : Write) :
    (writeStep s w).2 = s ∨
      wrote (event writeStep s w) = true ∧
        ∃ o : LaStorageObject, (writeStep s w).2 = written w.calls s o ∧ o.key = w.obj.key := by
  rcases writeStep_inside s w with crashed | step
  · exact Or.inl (by rw [crashed])
  obtain ⟨calls, kind, obj⟩ := w
  cases kind with
  | put rev =>
    cases hret : bdbLaStoragePut calls s rev obj with
    | none => exact Or.inl (by simp [step, Write.call, outcome, hret])
    | some ret =>
      have step : writeStep s ⟨calls, .put rev, obj⟩ = (some ret.result, ret.store) := by
        simp [step, Write.call, outcome, hret]
      rcases bdbLaStoragePut_cases hret with unstored | ⟨o, prepared, stored⟩
      · exact Or.inl (by rw [step, unstored.store])
      · refine Or.inr ⟨?_, o, by rw [step, stored.store], prepared.key⟩
        simp [wrote, event, step, stored.result]
  | replace =>
    have step : writeStep s ⟨calls, .replace, obj⟩ = (some (bdbLaStorageReplace calls s obj).result,
        (bdbLaStorageReplace calls s obj).store) := step
    rcases bdbLaStorageReplace_cases calls s obj with unstored | stored
    · exact Or.inl (by rw [step, unstored.store])
    · refine Or.inr ⟨?_, obj, by rw [step, stored.store], rfl⟩
      simp [wrote, event, step, stored.result]

theorem allotted_step {s : BdbStore} {w : Write} (allotted : Allotted s)
    (seq : SeqObtained w.calls s) : Allotted (writeStep s w).2 := by
  rcases writeStep_changed s w with same | ⟨-, o, after, -⟩
  · rwa [same]
  · rw [after]
    exact allotted_written o allotted seq

/-- After `past`, which began when `n` was the next number, every record with that number or a
later one belongs to a key written since. -/
def WrittenSince (n : Nat) (s : BdbStore) (past : List WriteEvent) : Prop :=
  ∀ key value, s.db.lookup key = some value → n ≤ seqOf value →
    key ∈ (past.filter wrote).map fun e => e.input.obj.key

theorem writtenSince_step {n : Nat} {s : BdbStore} {past : List WriteEvent} {w : Write}
    (since : WrittenSince n s past) :
    WrittenSince n (writeStep s w).2 (past ++ [event writeStep s w]) := by
  intro key value found late
  rw [List.filter_append, List.map_append]
  rcases writeStep_changed s w with same | ⟨success, o, after, named⟩
  · rw [same] at found
    exact List.mem_append_left _ (since key value found late)
  · rw [after] at found
    by_cases here : key = o.key
    · refine List.mem_append_right _ ?_
      rw [List.filter_cons_of_pos success, List.map_cons, here, named]
      exact List.mem_cons_self
    · rw [written_lookup_ne _ s here] at found
      exact List.mem_append_left _ (since key value found late)

/-- The entries of the index are records of the store, and no key has two. -/
theorem seqDb_entries (s : BdbStore) :
    (∀ e ∈ seqDb s, ∃ key value, s.db.lookup key = some value ∧ e = (key.bytes, value)) ∧
      ((seqDb s).map Prod.fst).Nodup := by
  have primary : (bdbPrimary s).filter (fun e => indexed e.1) =
      (s.db.entries.map fun e => (e.1.bytes, e.2)).filter fun e => indexed e.1 := by
    have internal : indexed seqName = false := rfl
    rw [bdbPrimary, List.filter_cons_of_neg (by simp [internal])]
  constructor
  · intro e he
    rw [seqDb, List.mem_insertionSort, primary] at he
    obtain ⟨entry, hentry, rfl⟩ := List.mem_map.mp (List.mem_filter.mp he).1
    exact ⟨entry.1, entry.2, AList.mem_lookup_iff.mpr hentry, rfl⟩
  · have perm : ((seqDb s).map Prod.fst).Perm
        (((s.db.entries.map fun e => (e.1.bytes, e.2)).filter fun e => indexed e.1).map
          Prod.fst) := by
      rw [seqDb, primary]
      exact (List.perm_insertionSort _ _).map _
    refine perm.nodup_iff.mpr ?_
    refine List.Nodup.sublist (List.filter_sublist.map Prod.fst) ?_
    rw [List.map_map]
    have bytes : s.db.entries.map (Prod.fst ∘ fun e => (e.1.bytes, e.2)) =
        s.db.keys.map CString.bytes := by
      rw [AList.keys, List.keys, List.map_map]
      rfl
    rw [bytes]
    exact s.db.keys_nodup.map fun a b same => CString.ext same

/-- `DB_SET` finds an entry with just this number, and what is left is behind it. -/
theorem iteratorOpen_cases {s : BdbStore} {since : UInt64} (ne : since ≠ 0)
    {it : LaStorageObjectIterator} (opened : bdbLaStorageIteratorOpen s since = some it) :
    ∃ skipped e rest, seqDb s = skipped ++ e :: rest ∧ seqOf e.2 = since.toNat ∧
      it = entryCursor rest := by
  rw [bdbLaStorageIteratorOpen, if_neg ne] at opened
  have split := List.takeWhile_append_dropWhile
    (p := fun e : List UInt8 × List UInt8 => seqOf e.2 != since.toNat) (l := seqDb s)
  have head := List.head?_dropWhile_not
    (fun e : List UInt8 × List UInt8 => seqOf e.2 != since.toNat) (seqDb s)
  cases found : (seqDb s).dropWhile fun e => seqOf e.2 != since.toNat with
  | nil =>
    rw [found] at opened
    cases opened
  | cons e rest =>
    rw [found] at opened split head
    cases opened
    exact ⟨_, e, rest, split.symm, by simpa using head, rfl⟩

/-- No run of writes is followed by a feed of what it wrote: the first number handed out is
skipped or, once its record is overwritten, not found. -/
theorem never_bdbFeeds (heap : CString → Memory) {before since : List Write}
    (obtained : ∀ e ∈ events writeStep bdbEmpty before, SeqObtained e.input.calls e.before) :
    ¬BdbFeeds heap before since := by
  have first := (preserved Allotted (fun s w => allotted_step) allotted_empty obtained).2
  rintro ⟨it, objs, opened, walk, -, all⟩
  generalize final writeStep bdbEmpty before = s at *
  have fresh : WrittenSince s.seqNext s [] := fun key value found late =>
    absurd (first.handedOut key value found) (Nat.not_lt.mpr late)
  have later : WrittenSince s.seqNext (final writeStep s since) (events writeStep s since) :=
    recorded (WrittenSince s.seqNext) (fun _ => True)
      (fun s past w rel _ => writtenSince_step rel) fresh fun _ _ => trivial
  have number : (bdbLaStorageLastseq true s).toNat = s.seqNext := by
    have := first.bounded
    simp only [bdbLaStorageLastseq, if_true, UInt64.toNat_ofNat']
    exact Nat.mod_eq_of_lt (by omega)
  have ne : bdbLaStorageLastseq true s ≠ 0 := by
    intro zero
    have := first.positive
    rw [zero] at number
    simp at number
    omega
  obtain ⟨skipped, e, rest, index, seq, rfl⟩ := iteratorOpen_cases ne opened
  obtain ⟨records, once⟩ := seqDb_entries (final writeStep s since)
  obtain ⟨key, value, found, rfl⟩ := records e (by rw [index]; simp)
  have late : s.seqNext ≤ seqOf value := (seq.trans number).ge
  have wanted : key ∈ objs.map LaStorageObject.key := (all key).mpr (later key value found late)
  rw [iterates_cursor_eq entryCursor (entryObject heap) rfl (fun _ _ => rfl) walk] at wanted
  obtain ⟨obj, hobj, hkey⟩ := List.mem_map.mp wanted
  obtain ⟨e', he', rfl⟩ := List.mem_map.mp hobj
  obtain ⟨key', value', -, rfl⟩ := records e' (by rw [index]; simp [he'])
  have same : key' = key := by
    rw [← hkey]
    exact (CString.ofBytes_bytes key').symm
  rw [index, List.map_append, List.map_cons] at once
  have apart := (List.nodup_cons.mp once.of_append_right).1
  rw [same] at he'
  exact apart (List.mem_map.mpr ⟨_, he', rfl⟩)

end BdbFeed
