import Lounge.Lib.Runs
import Lounge.Storage.BdbFeed
import Lounge.Storage.SqlitePut

/-!
# The change feed of SQLite

A put stores the number that `lastseq` reports, a replace whatever number its object came
with. The query for the changes takes the rows from a number on, that number included.
-/

namespace SqliteFeed
open FlatMemory ObjectStore ObjectIteration Process SqliteDriver SqlitePut Runs
open BdbSequence (WriteKind)

/-- A call of `sqlite_la_storage_put` or `sqlite_la_storage_replace`. -/
structure SqliteWrite where
  who : Nat
  calls : SqliteCalls
  kind : WriteKind
  obj : LaStorageObject

def SqliteWrite.proc (w : SqliteWrite) : PutProc :=
  match w.kind with
  | .put rev => sqliteLaStoragePut w.who w.calls rev w.obj
  | .replace => sqliteLaStorageReplace w.who w.calls w.obj

def sqliteStep (h : Sqlite3) (w : SqliteWrite) : Option LaStorageObjectPutResult × Sqlite3 :=
  match run serveSql w.proc h with
  | none => (none, h)
  | some (ret, h') => (some ret.result, h')

abbrev SqliteEvent := Event Sqlite3 SqliteWrite (Option LaStorageObjectPutResult)

/-- The call returned `LA_STORAGE_OBJECT_PUT_SUCCESS`, and its `COMMIT` did not roll back. -/
def Succeeded (e : SqliteEvent) : Prop :=
  e.output = some .success ∧ e.input.calls.endtxn ≠ .rolledBack

/-- What was written since `lastseq` is what an iterator opened at it yields. -/
def SqliteFeeds (heap : CString → Memory) (before since : List SqliteWrite) : Prop :=
  let h := final sqliteStep freshHandle before
  Feeds (sqliteLaStorageIteratorNext heap)
    (sqliteLaStorageIteratorOpen true true true (final sqliteStep h since)
      (sqliteLaStorageLastseq {} h))
    (since.map fun w => w.obj.key)

/-- The last of the writes to a key. -/
def lastWrite (ws : List SqliteWrite) (key : CString) : Option SqliteWrite :=
  ws.reverse.find? fun w => w.obj.key = key

/-- The write leaves a row that a reader from `number` on sees. -/
def SqliteWrite.Seen (number : UInt64) (w : SqliteWrite) : Prop :=
  match w.kind with
  | .put _ => True
  | .replace => number.toInt64 ≤ w.obj.header.seq.toInt64

/-- The last write of each key leaves a row that the reader sees, and the rows of the keys that
are not written were numbered below. -/
structure Separated (h : Sqlite3) (since : List SqliteWrite) : Prop where
  written : ∀ key w, lastWrite since key = some w → w.Seen (sqliteLaStorageLastseq {} h)
  unwritten : ∀ key row, key ∉ (since.map fun w => w.obj.key) →
    h.visible.docs.lookup key = some row → row.seq < (sqliteLaStorageLastseq {} h).toInt64

/-- The counter in `meta` stays in the range of an `INTEGER`. -/
def Counted (t : SqliteTables) : Prop := 1 ≤ t.metaSeq ∧ t.metaSeq ≤ integerMax

structure HandleCounted (h : Sqlite3) : Prop where
  committed : Counted h.committed
  txn : ∀ who t, h.txn = some (who, t) → Counted t

theorem counted_idle {t : SqliteTables} (counted : Counted t) : HandleCounted ⟨t, none⟩ := by
  refine ⟨counted, fun who t' opened => ?_⟩
  cases opened

theorem counted_inside {t w : SqliteTables} {who : Nat} (counted : Counted t) (inside : Counted w) :
    HandleCounted ⟨t, some (who, w)⟩ := by
  refine ⟨counted, fun who' w' opened => ?_⟩
  cases opened
  exact inside

theorem counted_fresh : HandleCounted freshHandle := counted_idle ⟨by decide, by decide⟩

theorem HandleCounted.visible {h : Sqlite3} (counted : HandleCounted h) : Counted h.visible := by
  obtain ⟨committed, txn⟩ := h
  cases txn with
  | none => exact counted.committed
  | some open_ => exact counted.txn open_.1 open_.2 rfl

theorem counted_insert {t : SqliteTables} (counted : Counted t) (key : CString) (row : DocsRow) :
    Counted (t.insertOrReplace key row) := by
  constructor
  · exact le_min (Nat.le_succ_of_le counted.1) (by decide)
  · exact min_le_right _ _

theorem counted_fail {h : Sqlite3} (counted : HandleCounted h) (outcome : SqlOutcome) :
    HandleCounted (h.fail outcome) := by
  cases outcome with
  | ok => exact counted
  | failed => exact counted
  | rolledBack => exact counted_idle counted.committed

theorem counted_update {h : Sqlite3} {t : SqliteTables} (counted : HandleCounted h)
    (new : Counted t) : HandleCounted (h.update t) := by
  obtain ⟨committed, txn⟩ := h
  cases txn with
  | none => exact counted_idle new
  | some open_ => exact counted_inside counted.committed new

theorem serve_counted (c : SqlCall) (h : Sqlite3) (r : SqlReply c) (h' : Sqlite3)
    (served : serveSql c h = some (r, h')) (counted : HandleCounted h) : HandleCounted h' := by
  cases c with
  | begintxn who outcome =>
    simp only [serveSql] at served
    split at served
    · cases served
      exact counted_inside counted.committed counted.committed
    · cases served
      exact counted
  | getseq outcome =>
    simp only [serveSql] at served
    split at served
    · cases served
      exact counted
    · cases served
      exact counted_fail counted outcome
  | getmeta outcome key =>
    simp only [serveSql] at served
    split at served
    · cases served
      exact counted
    · cases served
      exact counted_fail counted outcome
  | putdoc outcome key row =>
    simp only [serveSql] at served
    split at served
    · cases served
      exact counted_update counted (counted_insert counted.visible key row)
    · cases served
      exact counted_fail counted outcome
  | endtxn outcome =>
    obtain ⟨committed, txn⟩ := h
    cases txn with
    | none =>
      cases served
      exact counted
    | some open_ =>
      simp only [serveSql] at served
      split at served
      · cases served
        exact counted_idle (counted.txn open_.1 open_.2 rfl)
      · cases served
        exact counted_fail counted outcome
  | rollback outcome =>
    obtain ⟨committed, txn⟩ := h
    cases txn with
    | none =>
      cases served
      exact counted
    | some open_ =>
      simp only [serveSql] at served
      split at served
      · cases served
        exact counted_idle counted.committed
      · cases served
        exact counted_fail counted outcome

theorem sqliteStep_counted {h : Sqlite3} (counted : HandleCounted h) (w : SqliteWrite) :
    HandleCounted (sqliteStep h w).2 := by
  rw [sqliteStep]
  split
  · exact counted
  · rename_i ret h' ran
    exact run_preserves (fun c h r h' _ => serve_counted c h r h') (Proc.allCalls_true _) counted
      ran

theorem reachable_counted (ws : List SqliteWrite) :
    HandleCounted (final sqliteStep freshHandle ws) :=
  (invariant HandleCounted (fun _ w counted => sqliteStep_counted counted w) ws counted_fresh).2

/-- What a successful call stored: a put under the number of `meta`, a replace its object. -/
theorem sqliteStep_success {h : Sqlite3} {w : SqliteWrite}
    (success : Succeeded (event sqliteStep h w)) :
    ∃ o, (sqliteStep h w).2.visible = h.visible.insertOrReplace w.obj.key (rowOf o) ∧
      match w.kind with
      | .put _ => o.header.seq = UInt64.ofNat h.visible.metaSeq
      | .replace => o = w.obj := by
  obtain ⟨who, calls, kind, obj⟩ := w
  obtain ⟨output, keeps⟩ := success
  simp only [event, sqliteStep] at output keeps ⊢
  cases ran : run serveSql (SqliteWrite.proc ⟨who, calls, kind, obj⟩) h with
  | none =>
    rw [ran] at output
    cases output
  | some reply =>
    obtain ⟨ret, h'⟩ := reply
    rw [ran] at output
    have result : ret.result = .success := Option.some.inj output
    cases kind with
    | put rev =>
      obtain ⟨o, prepared, inserted⟩ := put_success ran result
      refine ⟨o, ?_, prepared.header.2.2.2.2⟩
      rw [inserted.visible keeps, prepared.key]
    | replace =>
      have inserted := replace_success ran result
      exact ⟨obj, inserted.visible keeps, rfl⟩

theorem toInt64_le {n m : Nat} (le : n ≤ m) (small : m ≤ integerMax) :
    (UInt64.ofNat n).toInt64 ≤ (UInt64.ofNat m).toInt64 := by
  rw [integerMax] at small
  rw [UInt64.toInt64_ofNat', UInt64.toInt64_ofNat', Int64.le_iff_toInt_le,
    Int64.toInt_ofNat_of_lt (by omega), Int64.toInt_ofNat_of_lt (by omega)]
  exact Int.ofNat_le.mpr le

theorem lastWrite_snoc (ws : List SqliteWrite) (w : SqliteWrite) (key : CString) :
    lastWrite (ws ++ [w]) key = if w.obj.key = key then some w else lastWrite ws key := by
  rw [lastWrite, List.reverse_append, List.reverse_singleton, List.singleton_append,
    List.find?_cons]
  by_cases same : w.obj.key = key
  · simp [same]
  · simp [same, lastWrite]

theorem lastWrite_isSome {ws : List SqliteWrite} {key : CString} :
    (lastWrite ws key).isSome ↔ key ∈ ws.map fun w => w.obj.key := by
  rw [lastWrite, List.find?_isSome]
  simp

/-- The row of a key, by the last write to it since the handle was `h`. -/
def RowSince (h h' : Sqlite3) (key : CString) : Option SqliteWrite → Prop
  | none => h'.visible.docs.lookup key = h.visible.docs.lookup key
  | some w => ∃ row, h'.visible.docs.lookup key = some row ∧
      ((UInt64.ofNat h.visible.metaSeq).toInt64 ≤ row.seq ↔
        w.Seen (UInt64.ofNat h.visible.metaSeq))

/-- The events `past` led from `h` to `h'`. -/
structure Since (h h' : Sqlite3) (past : List SqliteEvent) : Prop where
  later : h.visible.metaSeq ≤ h'.visible.metaSeq
  bounded : h'.visible.metaSeq ≤ integerMax
  rows : ∀ key, RowSince h h' key (lastWrite (past.map Event.input) key)

theorem since_step {h h' : Sqlite3} {past : List SqliteEvent} {w : SqliteWrite}
    (since : Since h h' past) (success : Succeeded (event sqliteStep h' w)) :
    Since h (sqliteStep h' w).2 (past ++ [event sqliteStep h' w]) := by
  obtain ⟨o, visible, kind⟩ := sqliteStep_success success
  have later := since.later
  have bounded := since.bounded
  constructor
  · rw [visible]
    exact le_min (Nat.le_succ_of_le later) (le_trans later bounded)
  · rw [visible]
    exact min_le_right _ _
  · intro key
    have input : (event sqliteStep h' w).input = w := rfl
    rw [List.map_append, List.map_singleton, lastWrite_snoc, input]
    by_cases same : w.obj.key = key
    · rw [if_pos same]
      refine ⟨rowOf o, ?_, ?_⟩
      · rw [visible, ← same]
        exact AList.lookup_insert _
      · rw [SqliteWrite.Seen]
        cases hk : w.kind with
        | put rev =>
          rw [hk] at kind
          refine ⟨fun _ => trivial, fun _ => ?_⟩
          rw [rowOf, kind]
          exact toInt64_le later bounded
        | replace =>
          rw [hk] at kind
          rw [kind]
          exact Iff.rfl
    · rw [if_neg same]
      have untouched :
          (sqliteStep h' w).2.visible.docs.lookup key = h'.visible.docs.lookup key := by
        rw [visible]
        exact AList.lookup_insert_ne (Ne.symm same)
      have row := since.rows key
      cases last : lastWrite (past.map Event.input) key with
      | none =>
        rw [last] at row
        exact untouched.trans row
      | some w' =>
        rw [last] at row
        obtain ⟨r, found, seen⟩ := row
        exact ⟨r, untouched.trans found, seen⟩

/-- The rows from `lastseq` on are those of the keys written since, if they are `Separated`. -/
theorem rows_iff {h h' : Sqlite3} {since : List SqliteWrite}
    (rows : ∀ key, RowSince h h' key (lastWrite since key)) :
    (∀ key, (∃ row, h'.visible.docs.lookup key = some row ∧
        (sqliteLaStorageLastseq {} h).toInt64 ≤ row.seq) ↔ key ∈ since.map fun w => w.obj.key) ↔
      Separated h since := by
  have number : sqliteLaStorageLastseq {} h = UInt64.ofNat h.visible.metaSeq := rfl
  constructor
  · intro feed
    constructor
    · intro key w last
      have row := rows key
      rw [last] at row
      obtain ⟨r, found, seen⟩ := row
      have wanted : key ∈ since.map fun w => w.obj.key := lastWrite_isSome.mp (by rw [last]; rfl)
      obtain ⟨r', found', later⟩ := (feed key).mpr wanted
      rw [found] at found'
      cases found'
      exact seen.mp later
    · intro key row other found
      have same := rows key
      cases last : lastWrite since key with
      | some w => exact absurd (lastWrite_isSome.mp (by rw [last]; rfl)) other
      | none =>
        rw [last] at same
        by_contra later
        exact other ((feed key).mp ⟨row, same.trans found, Int64.not_lt.mp later⟩)
  · intro separated key
    have row := rows key
    cases last : lastWrite since key with
    | none =>
      have other : key ∉ since.map fun w => w.obj.key := by
        rw [← lastWrite_isSome, last]
        exact Bool.false_ne_true
      rw [last] at row
      refine ⟨?_, fun wanted => absurd wanted other⟩
      rintro ⟨r, found, later⟩
      have below := separated.unwritten key r other (row.symm.trans found)
      exact absurd later (Int64.not_le.mpr below)
    | some w =>
      have wanted : key ∈ since.map fun w => w.obj.key := lastWrite_isSome.mp (by rw [last]; rfl)
      rw [last] at row
      obtain ⟨r, found, seen⟩ := row
      exact ⟨fun _ => wanted, fun _ => ⟨r, found, seen.mpr (separated.written key w last)⟩⟩

/-- The rows that the query for the changes selects. -/
def rowsFrom (h : Sqlite3) (number : UInt64) : List (CString × DocsRow) :=
  (h.visible.docs.entries.map fun e => (e.1, e.2)).filter fun r => number.toInt64 ≤ r.2.seq

/-- The iterator in front of these rows. -/
def rowCursor (rows : List (CString × DocsRow)) : SqliteIterator := ⟨rows.map some⟩

theorem iteratorOpen_rows {h : Sqlite3} {number : UInt64} (positive : 0 < number) :
    sqliteLaStorageIteratorOpen true true true h number =
      some (rowCursor (rowsFrom h number)) := by
  simp [sqliteLaStorageIteratorOpen, positive, rowCursor, rowsFrom]

theorem mem_rowsFrom {h : Sqlite3} {number : UInt64} {key : CString} :
    key ∈ (rowsFrom h number).map Prod.fst ↔
      ∃ row, h.visible.docs.lookup key = some row ∧ number.toInt64 ≤ row.seq := by
  constructor
  · intro hkey
    obtain ⟨r, hr, rfl⟩ := List.mem_map.mp hkey
    obtain ⟨hmem, later⟩ := List.mem_filter.mp hr
    obtain ⟨e, he, rfl⟩ := List.mem_map.mp hmem
    exact ⟨e.2, AList.mem_lookup_iff.mpr he, by simpa using later⟩
  · rintro ⟨row, found, later⟩
    refine List.mem_map.mpr ⟨(key, row), List.mem_filter.mpr ⟨?_, by simpa using later⟩, rfl⟩
    exact List.mem_map.mpr ⟨⟨key, row⟩, AList.mem_lookup_iff.mp found, rfl⟩

theorem rowsFrom_nodup (h : Sqlite3) (number : UInt64) :
    ((rowsFrom h number).map Prod.fst).Nodup := by
  refine List.Nodup.sublist (List.filter_sublist.map Prod.fst) ?_
  rw [List.map_map]
  exact h.visible.docs.keys_nodup

/-- After a run of successful calls the feed is complete exactly if the rows are `Separated`. -/
theorem sqliteFeeds_iff (heap : CString → Memory) (before : List SqliteWrite)
    {since : List SqliteWrite}
    (success : ∀ e ∈ events sqliteStep (final sqliteStep freshHandle before) since, Succeeded e) :
    SqliteFeeds heap before since ↔ Separated (final sqliteStep freshHandle before) since := by
  have counted := (reachable_counted before).visible
  rw [SqliteFeeds]
  generalize final sqliteStep freshHandle before = h at *
  have start : Since h h [] := ⟨le_rfl, counted.2, fun _ => rfl⟩
  have rows := (recorded (Since h) Succeeded (fun _ _ _ => since_step) start success).rows
  rw [inputs_events] at rows
  rw [← rows_iff rows]
  have positive : 0 < sqliteLaStorageLastseq {} h := by
    have small := counted.2
    have first := counted.1
    rw [integerMax] at small
    show 0 < UInt64.ofNat h.visible.metaSeq
    rw [UInt64.lt_iff_toNat_lt, UInt64.toNat_ofNat', Nat.mod_eq_of_lt (by omega)]
    exact first
  rw [iteratorOpen_rows positive, feeds_cursor rowCursor (fun r => rowObject (heap r.1) r.1 r.2) rfl
    fun _ _ => rfl]
  have keys : ∀ rs : List (CString × DocsRow),
      (rs.map fun r => (rowObject (heap r.1) r.1 r.2).key) = rs.map Prod.fst := fun _ => rfl
  rw [keys]
  simp only [mem_rowsFrom]
  exact and_iff_right (rowsFrom_nodup _ _)

/-- With Berkeley DB what was written since `lastseq` is never what an iterator yields that is
opened there. With SQLite it is if every key was last written by a put, or by a replace whose
object came with a late enough number, and no other row has such a number. -/
theorem change_feed_iff (heap : CString → Memory) :
    (∀ before since : List BdbSequence.Write,
      (∀ e ∈ events BdbSequence.writeStep BdbDriver.bdbEmpty before,
        BdbAtomicity.SeqObtained e.input.calls e.before) →
      ¬BdbFeed.BdbFeeds heap before since) ∧
    ∀ before since : List SqliteWrite,
      (∀ e ∈ events sqliteStep (final sqliteStep freshHandle before) since, Succeeded e) →
      (SqliteFeeds heap before since ↔ Separated (final sqliteStep freshHandle before) since) :=
  ⟨fun _ _ obtained => BdbFeed.never_bdbFeeds heap obtained,
    fun before _ success => sqliteFeeds_iff heap before success⟩

section Samples

private def fedObject : LaStorageObject :=
  ⟨.ofBytes [97], ⟨0, 0, false, 0, uniformRev 1⟩, fun _ => 0, 0, 0⟩

/-- A document under this key. -/
private def keyedObject (key : UInt8) : LaStorageObject :=
  { fedObject with key := .ofBytes [key] }

/-- Two documents are put; then the second one again, and a third. -/
private def putsBefore : List (WriteKind × LaStorageObject) :=
  [(.put none, keyedObject 97), (.put none, keyedObject 98)]

private def putsSince : List (WriteKind × LaStorageObject) :=
  [(.put (some (uniformRev 1)), keyedObject 98), (.put none, keyedObject 99)]

private def onBdb (w : WriteKind × LaStorageObject) : BdbSequence.Write := ⟨{}, w.1, w.2⟩

private def onSqlite (w : WriteKind × LaStorageObject) : SqliteWrite := ⟨0, {}, w.1, w.2⟩

/-- Only SQLite reports the later puts. -/
theorem change_feed_later_puts :
    ¬BdbFeed.BdbFeeds (fun _ _ => 0) (putsBefore.map onBdb) (putsSince.map onBdb) ∧
      SqliteFeeds (fun _ _ => 0) (putsBefore.map onSqlite) (putsSince.map onSqlite) := by
  refine ⟨(change_feed_iff _).1 _ _ ?_, ((change_feed_iff _).2 _ _ ?_).mpr ⟨?_, ?_⟩⟩
  · simp only [BdbAtomicity.SeqObtained]
    decide +kernel
  · simp only [Succeeded]
    decide +kernel
  · intro key w last
    have put := List.mem_reverse.mp (List.mem_of_find?_eq_some last)
    simp only [putsSince, List.map_cons, List.map_nil, List.mem_cons, List.not_mem_nil,
      or_false] at put
    rcases put with rfl | rfl <;> exact trivial
  · intro key row other found
    have below : ∀ e ∈
        (final sqliteStep freshHandle (putsBefore.map onSqlite)).visible.docs.entries,
        e.1 ∉ ((putsSince.map onSqlite).map fun w => w.obj.key) → e.2.seq < 3 := by
      decide +kernel
    exact below ⟨key, row⟩ (AList.mem_lookup_iff.mp found) other

/-- A put that an iterator opened at the earlier `lastseq` skips, and a replace whose object
came without a number. -/
theorem write_not_fed :
    ¬BdbFeed.BdbFeeds (fun _ _ => 0) [] [⟨{}, .put none, fedObject⟩] ∧
      ¬SqliteFeeds (fun _ _ => 0) [] [⟨0, {}, .replace, fedObject⟩] := by
  constructor
  · rintro ⟨it, objs, opened, walk, -, all⟩
    have behind : (BdbDriver.bdbLaStorageIteratorOpen
        (final BdbSequence.writeStep BdbDriver.bdbEmpty [⟨{}, .put none, fedObject⟩]) 1).map
          (fun it => it.cursor) = some [] := by decide +kernel
    have written : fedObject.key ∈ BdbFeed.keysWritten BdbDriver.bdbEmpty
        [⟨{}, .put none, fedObject⟩] := by decide +kernel
    replace opened : BdbDriver.bdbLaStorageIteratorOpen
        (final BdbSequence.writeStep BdbDriver.bdbEmpty [⟨{}, .put none, fedObject⟩]) 1 =
          some it := opened
    rw [opened] at behind
    obtain ⟨cursor⟩ := it
    obtain rfl : cursor = [] := Option.some.inj behind
    cases walk with
    | stop => exact List.not_mem_nil ((all _).mpr written)
    | more here => cases here
  · intro feeds
    have success : ∀ e ∈ events sqliteStep (final sqliteStep freshHandle [])
        [⟨0, {}, .replace, fedObject⟩], Succeeded e := by
      intro e he
      simp only [events, List.mem_cons, List.not_mem_nil, or_false] at he
      subst he
      exact ⟨rfl, by decide⟩
    have seen : (1 : UInt64).toInt64 ≤ (0 : UInt64).toInt64 :=
      ((sqliteFeeds_iff _ [] success).mp feeds).written fedObject.key _ rfl
    exact absurd seen (by decide)

end Samples

end SqliteFeed
