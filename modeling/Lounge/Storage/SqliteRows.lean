import Lounge.Storage.SqliteFeed

/-!
# Rows read back as objects

The writes bind an object to the columns of a row; `sqlite_la_storage_get` and
`sqlite_la_storage_iterator_next` make an object of a row. The writes bind the history as so
many bytes, the readers take its bytes for so many revisions.
-/

namespace SqliteRows
open FlatMemory ObjectStore Process SqliteDriver SqlitePut SqliteFeed

/-- How the calls of one `sqlite_la_storage_get` end, and the memory it gets from `malloc`. -/
structure GetCalls where
  prepared : Bool := true
  boundId : Bool := true
  boundRev : Bool := true
  step : SqlOutcome := .ok
  allocated : Bool := true
  heap : Memory := fun _ => 0

structure GetCalls.Succeed (c : GetCalls) : Prop where
  prepared : c.prepared = true
  boundId : c.boundId = true
  boundRev : c.boundRev = true
  step : c.step = .ok
  allocated : c.allocated = true

/-- `sqlite_la_storage_get` with `obj` NULL or not. The block of the object is written to
whether or not it was allocated, a trap. -/
def sqliteLaStorageGet (c : GetCalls) (h : Sqlite3) (key : CString) (rev : Option LaStorageRev)
    (obj : Bool) : Option (LaStorageObjectGetResult × Option LaStorageObject) :=
  if !c.prepared || !c.boundId || (rev.isSome && !c.boundRev) || decide (c.step ≠ .ok) then
    some (.error, none)
  else
    match (h.visible.docs.lookup key).filter fun row => rev.all (· == row.rev) with
    | none => some (.notFound, none)
    | some row =>
      if !obj then some (.ok, none)
      else if c.allocated then some (.ok, some (rowObject c.heap key row))
      else none

/-- What the readers copy out of a row: each column with the number of bytes that `memcpy`
takes from it. -/
def rowCopies (row : DocsRow) : List (List UInt8 × Nat) :=
  [(row.rev.rev, 16), (row.oldrevs, row.oldrevs.length * 16), (row.doc, row.doc.length)]

/-- The object that was read is the one that was bound, apart from its numbers. -/
structure SameObject (bound found : LaStorageObject) : Prop where
  deleted : found.header.deleted = bound.header.deleted
  rev : found.header.rev = bound.header.rev
  revCount : found.header.revCount = bound.header.revCount
  history : revsAt found.revsData 0 bound.header.revCount.toNat =
    revsAt bound.revsData 0 bound.header.revCount.toNat
  data : found.laStorageObjectGetData = bound.laStorageObjectGetData

/-- Both readers give the object back, without reading behind a column. -/
structure ReadsBack (reader : Sqlite3) (bound : LaStorageObject) : Prop where
  get : ∀ c : GetCalls, c.Succeed → ∃ found,
    sqliteLaStorageGet c reader bound.key none true = some (.ok, some found) ∧
      SameObject bound found
  next : ∀ heap row rest, reader.visible.docs.lookup bound.key = some row → ∃ found,
    sqliteLaStorageIteratorNext heap ⟨some (bound.key, row) :: rest⟩ =
        (.gotNext, some found, ⟨rest⟩) ∧
      SameObject bound found
  inside : ∀ row, reader.visible.docs.lookup bound.key = some row →
    ∀ copy ∈ rowCopies row, copy.2 ≤ copy.1.length

/-- Right after a write whose `COMMIT` keeps the transaction, a reader finds its row. -/
theorem written_row {h h' : Sqlite3} {w : SqliteWrite} {ret : SqlitePutReturn}
    (ran : run serveSql w.proc h = some (ret, h')) (success : ret.result = .success)
    (keeps : w.calls.endtxn ≠ .rolledBack) :
    h'.visible.docs.lookup ret.obj.key = some (rowOf ret.obj) := by
  have shown : ∀ {o}, Inserted w.calls (begun w.who w.calls.begintxn h) o ret h' →
      h'.visible.docs.lookup ret.obj.key = some (rowOf ret.obj) := by
    intro o inserted
    rw [inserted.visible keeps, inserted.returned]
    exact AList.lookup_insert _
  obtain ⟨who, calls, kind, obj⟩ := w
  cases kind with
  | put rev =>
    obtain ⟨o, -, inserted⟩ := put_success ran success
    exact shown inserted
  | replace => exact shown (replace_success ran success)

/-- Without a history the row has all of the object. -/
theorem rowObject_same {o : LaStorageObject} (none : o.header.revCount = 0) (heap : Memory) :
    SameObject o (rowObject heap o.key (rowOf o)) := by
  have count : o.header.revCount.toNat = 0 := by rw [none]; rfl
  have oldrevs : (rowOf o).oldrevs = [] := by simp [rowOf, count]
  have counted : (rowObject heap o.key (rowOf o)).header.revCount = 0 := by
    simp [rowObject, oldrevs]
  have length : (rowOf o).doc.length = o.dataLength.toNat := by
    simp [rowOf, LaStorageObject.laStorageObjectGetData]
  refine ⟨rfl, rfl, counted.trans none.symm, ?_, ?_⟩
  · rw [count]
    rfl
  · have size : (rowObject heap o.key (rowOf o)).dataLength.toNat = (rowOf o).doc.length := by
      simp only [rowObject, length, UInt32.ofNat_toNat]
    rw [LaStorageObject.laStorageObjectGetData, size]
    exact read_store_self _ _ (rowOf o).doc

/-- A reader that finds the row of an object gives the object back exactly if it has no
history. -/
theorem row_readsBack_iff {reader : Sqlite3} {o : LaStorageObject}
    (shown : reader.visible.docs.lookup o.key = some (rowOf o)) :
    ReadsBack reader o ↔ o.header.revCount = 0 := by
  constructor
  · intro back
    have taken := back.inside _ shown ((rowOf o).oldrevs, (rowOf o).oldrevs.length * 16)
      (by simp [rowCopies])
    simp only [rowOf, length_read] at taken
    apply BitVec.eq_of_toNat_eq
    simp only [BitVec.ofNat_eq_ofNat, BitVec.toNat_ofNat]
    omega
  · intro none
    constructor
    · intro c ok
      refine ⟨rowObject c.heap o.key (rowOf o), ?_, rowObject_same none c.heap⟩
      simp [sqliteLaStorageGet, ok.prepared, ok.boundId, ok.step, ok.allocated, shown,
        Option.filter]
    · intro heap row rest found
      obtain rfl : rowOf o = row := Option.some.inj (shown.symm.trans found)
      exact ⟨_, rfl, rowObject_same none (heap o.key)⟩
    · intro row found copy mem
      obtain rfl : rowOf o = row := Option.some.inj (shown.symm.trans found)
      have oldrevs : (rowOf o).oldrevs = [] := by simp [rowOf, none]
      simp only [rowCopies, List.mem_cons, List.not_mem_nil, or_false] at mem
      rcases mem with rfl | rfl | rfl
      · exact Nat.le_of_eq (rowOf o).rev.length_eq.symm
      · simp [oldrevs]
      · exact Nat.le_refl _

/-- What a successful write has bound is in its row unless the `COMMIT` rolled back, and as long
as the row is there it is read as it was bound exactly if the object has no history. -/
theorem written_readsBack_iff {h h' : Sqlite3} {w : SqliteWrite} {ret : SqlitePutReturn}
    (ran : run serveSql w.proc h = some (ret, h')) (success : ret.result = .success) :
    (w.calls.endtxn ≠ .rolledBack →
        h'.visible.docs.lookup ret.obj.key = some (rowOf ret.obj)) ∧
      ∀ reader : Sqlite3, reader.visible.docs.lookup ret.obj.key = some (rowOf ret.obj) →
        (ReadsBack reader ret.obj ↔ ret.obj.header.revCount = 0) :=
  ⟨written_row ran success, fun _ shown => row_readsBack_iff shown⟩

section Samples

private def rowPlain : LaStorageObject :=
  ⟨CString.ofBytes [97], ⟨0, 0, false, 0, uniformRev 2⟩, load [123, 125] fun _ => 0, 2, 2⟩

private def rowHistoric : LaStorageObject :=
  ⟨CString.ofBytes [97], ⟨0, 0, false, 1, uniformRev 2⟩,
    load ((uniformRev 1).rev ++ [123, 125]) fun _ => 0, 18, 2⟩

private def rowWrite (obj : LaStorageObject) : SqliteWrite := ⟨0, {}, .replace, obj⟩

private def rowHandle (obj : LaStorageObject) : Sqlite3 :=
  ⟨sqliteEmpty.insertOrReplace obj.key (rowOf obj), none⟩

private theorem rowWrite_runs (obj : LaStorageObject) (small : obj.dataLength.toNat < 2 ^ 31) :
    run serveSql (rowWrite obj).proc freshHandle = some (⟨.success, obj⟩, rowHandle obj) := by
  have began : run serveSql (rowWrite obj).proc freshHandle =
      run serveSql (putdocReturn {} obj) ⟨sqliteEmpty, some (0, sqliteEmpty)⟩ := rfl
  rw [began]
  exact run_putdocReturn_quiet succeed_default 0 small sqliteEmpty sqliteEmpty

/-- An object without a history is read back. -/
theorem plain_readsBack : ReadsBack (rowHandle rowPlain) rowPlain := by
  have written := written_readsBack_iff (rowWrite_runs rowPlain (by decide)) rfl
  exact (written.2 _ (written.1 (by decide))).mpr rfl

/-- An object with one revision behind it is not. -/
theorem historic_not_readsBack :
    run serveSql (rowWrite rowHistoric).proc freshHandle =
        some (⟨.success, rowHistoric⟩, rowHandle rowHistoric) ∧
      ¬ ReadsBack (rowHandle rowHistoric) rowHistoric := by
  have ran := rowWrite_runs rowHistoric (by decide)
  refine ⟨ran, fun back => ?_⟩
  have none := (row_readsBack_iff (written_row ran rfl (by decide))).mp back
  exact absurd none (by decide)

end Samples

end SqliteRows
