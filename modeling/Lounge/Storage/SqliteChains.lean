import Lounge.Storage.BdbChains
import Lounge.Storage.SqlitePut

/-!
# Chains of puts in SQLite

Each put of a chain brings a fresh object without history and names the revision of the
put before it. The history column is always right. At the cap, the whole old history is
still copied in behind the replaced revision, over the start of the document, and past the end
of a document that is too short.
-/

namespace SqliteChains
open FlatMemory ObjectStore BdbRecord BdbChains Process SqliteDriver SqlitePut

/-- What the environment contributes: each put's calls, and the memory behind each object. -/
structure SqliteEnv where
  calls : Nat → SqliteCalls
  block : Nat → Memory

/-- The old history, copied in behind the replaced revision, ends inside the block of the grown
object. -/
def copiesInside (row : DocsRow) (obj : LaStorageObject) : Bool :=
  16 + (row.oldrevs.take (laObjectMaxRevisionCount * 16)).length ≤
    (countedObject row obj).laStorageObjectTotalSize - headerSize

/-- A put on this base writes past the end of its block. -/
def overruns (h : Sqlite3) (base : Option LaStorageRev) (obj : LaStorageObject) : Bool :=
  (h.visible.docs.lookup obj.key).any fun row => base == some row.rev && !copiesInside row obj

/-- The put of one version. It counts as successful when it stays inside its block, says so, and its
`COMMIT` does not fail. -/
def putRow (env : SqliteEnv) (key : CString) (i : Nat) (h : Sqlite3)
    (base : Option LaStorageRev) (v : Version) : Option Sqlite3 :=
  match plainObject (env.block i) key v with
  | none => none
  | some obj =>
    if overruns h base obj then none
    else
      match run serveSql (sqliteLaStoragePut i (env.calls i) base obj) h with
      | none => none
      | some (ret, h') =>
        if ret.result = .success ∧ (env.calls i).endtxn = .ok then some h' else none

/-- A chain of successful puts, the `i`-th and later ones. -/
def putRows (env : SqliteEnv) (key : CString) :
    Nat → Sqlite3 → Option LaStorageRev → List Version → Option Sqlite3
  | _, h, _, [] => some h
  | i, h, base, v :: rest =>
    match putRow env key i h base v with
    | none => none
    | some h' => putRows env key (i + 1) h' (some v.rev) rest

/-- The committed row of `key` is the last version, with all before it as history, newest
first and cut at the cap. -/
def RowHolds (h : Sqlite3) (key : CString) (before : List Version) (last : Version) : Prop :=
  ∃ row, h.committed.docs.lookup key = some row ∧ row.rev = last.rev ∧ row.doc = last.data ∧
    row.oldrevs = revBytes ((before.reverse.map Version.rev).take laObjectMaxRevisionCount)

theorem revBytes_append (xs ys : List LaStorageRev) :
    revBytes (xs ++ ys) = revBytes xs ++ revBytes ys := List.flatMap_append

theorem take_revBytes (revs : List LaStorageRev) (n : Nat) :
    (revBytes revs).take (16 * n) = revBytes (revs.take n) := by
  by_cases short : revs.length ≤ n
  · rw [List.take_of_length_le (by rw [length_revBytes]; omega), List.take_of_length_le short]
  · have split := revBytes_append (revs.take n) (revs.drop n)
    rw [List.take_append_drop] at split
    rw [split, List.take_left']
    rw [length_revBytes, List.length_take]
    omega

theorem rowOf_oldrevs (obj : LaStorageObject) :
    (rowOf obj).oldrevs = read obj.revsData 0 (16 * obj.header.revCount.toNat) := rfl

theorem rowOf_doc (obj : LaStorageObject) :
    (rowOf obj).doc =
      read obj.revsData (16 * obj.header.revCount.toNat) obj.dataLength.toNat := rfl

section Layout
variable {obj : LaStorageObject} {data : List UInt8} {row : DocsRow}
  {history : List LaStorageRev} (heap : Memory)

theorem grownCount_revBytes (within : history.length ≤ laObjectMaxRevisionCount) :
    grownCount (revBytes history) = min (history.length + 1) laObjectMaxRevisionCount := by
  rw [laObjectMaxRevisionCount] at within
  have bytes : (revBytes history).length / 16 = history.length := by
    rw [length_revBytes]
    omega
  rw [grownCount, bytes, laObjectMaxRevisionCount]
  split <;> omega

/-- Where the parts of a pushed object come from: the document moved to `16 * count`, the old
history copied over that, and the replaced revision in front. -/
theorem pushRow_layout (laid : LaidOut obj [] data) (owned : obj.alloc = data.length)
    (oldrevs : row.oldrevs = revBytes history)
    (within : history.length ≤ laObjectMaxRevisionCount) :
    (pushRow heap row obj).header.revCount.toNat =
        min (history.length + 1) laObjectMaxRevisionCount ∧
      ∃ moved, read moved (16 * min (history.length + 1) laObjectMaxRevisionCount) data.length =
          data ∧
        (pushRow heap row obj).revsData =
          store (store moved 16 (revBytes history)) 0 row.rev.rev := by
  have cap := grownCount_revBytes within
  have count : (countedObject row obj).header.revCount.toNat =
      min (history.length + 1) laObjectMaxRevisionCount := by
    rw [countedObject, oldrevs, cap, BitVec.toNat_ofNat, laObjectMaxRevisionCount]
    omega
  have whole : row.oldrevs.take (laObjectMaxRevisionCount * 16) = revBytes history := by
    rw [oldrevs, List.take_of_length_le]
    rw [length_revBytes]
    omega
  have zero : obj.dataOffset = 0 := by
    rw [LaStorageObject.dataOffset, laid.counted]
    rfl
  have content : read obj.revsData 0 data.length = data := by
    simpa [revBytes] using laid.content
  refine ⟨count, _, ?_, by rw [pushRow, whole]⟩
  have target : (countedObject row obj).dataOffset =
      16 * min (history.length + 1) laObjectMaxRevisionCount := by
    rw [LaStorageObject.dataOffset, count]
  have length : (countedObject row obj).dataLength.toNat = data.length := laid.length
  -- `realloc` keeps the document, `memmove` takes it to its place.
  have kept : data.length ≤ min obj.alloc
      ((countedObject row obj).laStorageObjectTotalSize - headerSize) := by
    rw [owned, LaStorageObject.laStorageObjectTotalSize, length]
    omega
  rw [← target, laid.length, zero]
  generalize min obj.alloc ((countedObject row obj).laStorageObjectTotalSize - headerSize) = n
    at kept ⊢
  calc read (move (regrow obj.revsData n heap) (countedObject row obj).dataOffset 0 data.length)
        (countedObject row obj).dataOffset data.length
    _ = read (regrow obj.revsData n heap) 0 data.length := read_move_inside (o := 0) (by omega)
    _ = read obj.revsData 0 data.length := read_regrow (by omega)
    _ = data := content

/-- The history column of a pushed object is right at every length. -/
theorem pushRow_oldrevs (laid : LaidOut obj [] data) (owned : obj.alloc = data.length)
    (oldrevs : row.oldrevs = revBytes history)
    (within : history.length ≤ laObjectMaxRevisionCount) :
    (rowOf (pushRow heap row obj)).oldrevs =
      revBytes ((row.rev :: history).take laObjectMaxRevisionCount) := by
  obtain ⟨count, moved, -, memory⟩ := pushRow_layout heap laid owned oldrevs within
  rw [laObjectMaxRevisionCount] at within count
  have split : 16 * min (history.length + 1) 1024 = 16 + 16 * min history.length 1023 := by omega
  have first : read (store (store moved 16 (revBytes history)) 0 row.rev.rev) 0 16 =
      row.rev.rev := by
    have := read_store_self (store moved 16 (revBytes history)) 0 row.rev.rev
    rwa [row.rev.length_eq] at this
  have others : read (store (store moved 16 (revBytes history)) 0 row.rev.rev) 16
      (16 * min history.length 1023) = revBytes (history.take 1023) := by
    rw [read_store_outside (by simp [row.rev.length_eq]),
      read_store_prefix (by rw [length_revBytes]; omega), take_revBytes]
    congr 1
    by_cases short : history.length ≤ 1023
    · rw [Nat.min_eq_left short, List.take_length, List.take_of_length_le short]
    · rw [Nat.min_eq_right (by omega)]
  rw [rowOf_oldrevs, count, memory, split, ← read_append, first, Nat.zero_add, others,
    laObjectMaxRevisionCount, List.take_succ_cons]
  rfl

/-- Below the cap the document column is the document. -/
theorem pushRow_doc (laid : LaidOut obj [] data) (owned : obj.alloc = data.length)
    (oldrevs : row.oldrevs = revBytes history)
    (below : history.length < laObjectMaxRevisionCount) :
    (rowOf (pushRow heap row obj)).doc = data := by
  obtain ⟨count, moved, placed, memory⟩ := pushRow_layout heap laid owned oldrevs below.le
  have whole : min (history.length + 1) laObjectMaxRevisionCount = history.length + 1 :=
    Nat.min_eq_left below
  rw [whole] at count placed
  have length : (pushRow heap row obj).dataLength.toNat = data.length := laid.length
  rw [rowOf_doc, count, length, memory,
    read_store_outside (by rw [row.rev.length_eq]; omega),
    read_store_outside (by rw [length_revBytes]; omega), placed]

/-- At the cap the oldest revision lies over the first 16 bytes of the document. -/
theorem pushRow_doc_cap {older : List LaStorageRev} {oldest : LaStorageRev}
    (laid : LaidOut obj [] data) (owned : obj.alloc = data.length)
    (oldrevs : row.oldrevs = revBytes (older ++ [oldest]))
    (full : older.length + 1 = laObjectMaxRevisionCount) :
    (rowOf (pushRow heap row obj)).doc = (oldest.rev ++ data.drop 16).take data.length := by
  have within : (older ++ [oldest]).length ≤ laObjectMaxRevisionCount := by
    rw [List.length_append, List.length_singleton, full]
  obtain ⟨count, moved, placed, memory⟩ := pushRow_layout heap laid owned oldrevs within
  rw [laObjectMaxRevisionCount] at full
  have whole : min ((older ++ [oldest]).length + 1) laObjectMaxRevisionCount = 1024 := by
    rw [List.length_append, List.length_singleton, laObjectMaxRevisionCount]
    omega
  rw [whole] at count placed
  have length : (pushRow heap row obj).dataLength.toNat = data.length := laid.length
  have bytes : revBytes (older ++ [oldest]) = revBytes older ++ oldest.rev := by
    rw [revBytes_append]
    simp [revBytes]
  have olderLength : (revBytes older).length = 16 * 1023 := by
    rw [length_revBytes]
    omega
  have front : read (store (store moved 16 (revBytes older ++ oldest.rev)) 0 row.rev.rev)
      (16 * 1024) 16 = oldest.rev := by
    have suffix := read_store_suffix moved 16 (revBytes older) oldest.rev
    rw [olderLength, oldest.length_eq] at suffix
    rw [read_store_outside (by rw [row.rev.length_eq]; omega)]
    exact suffix
  have back : read (store (store moved 16 (revBytes older ++ oldest.rev)) 0 row.rev.rev)
      (16 * 1024 + 16) (data.length - 16) = data.drop 16 := by
    have rest := drop_read moved (16 * 1024) data.length 16
    rw [read_store_outside (by rw [row.rev.length_eq]; omega), read_store_outside
      (by rw [List.length_append, olderLength, oldest.length_eq]; omega), ← rest, placed]
  rw [rowOf_doc, count, length, memory, bytes]
  by_cases short : data.length ≤ 16
  · have within : data.length ≤ oldest.rev.length := by rwa [oldest.length_eq]
    rw [← take_read _ _ short, front, List.take_append_of_le_length within]
  · have split : data.length = 16 + (data.length - 16) := by omega
    have fits : (oldest.rev ++ data.drop 16).length ≤ data.length := by
      rw [List.length_append, oldest.length_eq, List.length_drop]
      omega
    rw [List.take_of_length_le fits]
    conv_lhs => rw [split]
    rw [← read_append, front, back]

/-- A full history is copied past the end of a document of less than 16 bytes. -/
theorem copiesInside_iff (laid : LaidOut obj [] data) (oldrevs : row.oldrevs = revBytes history)
    (within : history.length ≤ laObjectMaxRevisionCount) :
    copiesInside row obj = true ↔
      (history.length = laObjectMaxRevisionCount → 16 ≤ data.length) := by
  have cap := grownCount_revBytes within
  have length := laid.length
  rw [laObjectMaxRevisionCount] at within cap
  simp only [copiesInside, countedObject, LaStorageObject.laStorageObjectTotalSize, oldrevs, cap,
    BitVec.toNat_ofNat, List.length_take, length_revBytes, laObjectMaxRevisionCount, length,
    decide_eq_true_eq]
  omega

end Layout

/-- The document column after a put on top of the versions `before`. -/
def storedDoc (before : List Version) (v : Version) : List UInt8 :=
  match before.reverse[laObjectMaxRevisionCount]? with
  | none => v.data
  | some oldest => (oldest.rev.rev ++ v.data.drop 16).take v.data.length

/-- After the puts of `vs` the key is absent, or its row is that of the last of them. -/
structure RowAfter (h : Sqlite3) (key : CString) (vs : List Version) : Prop where
  absent : vs = [] → h.visible.docs.lookup key = none
  stored : ∀ before last, vs = before ++ [last] → h.txn = none ∧
    ∃ row, h.committed.docs.lookup key = some row ∧ row.rev = last.rev ∧
      row.doc = storedDoc before last ∧
      (before.reverse[laObjectMaxRevisionCount]?.isSome = true → 16 ≤ last.data.length) ∧
      row.oldrevs = revBytes ((before.reverse.map Version.rev).take laObjectMaxRevisionCount)

/-- The row of `previous` on top of `older`, with `v` pushed onto it. -/
theorem pushRow_row {obj : LaStorageObject} {row : DocsRow} {older : List Version}
    {previous v : Version} (heap : Memory) (laid : LaidOut obj [] v.data)
    (owned : obj.alloc = v.data.length) (rev : row.rev = previous.rev)
    (oldrevs : row.oldrevs =
      revBytes ((older.reverse.map Version.rev).take laObjectMaxRevisionCount)) :
    (rowOf (pushRow heap row obj)).doc = storedDoc (older ++ [previous]) v ∧
      (rowOf (pushRow heap row obj)).oldrevs =
        revBytes (((older ++ [previous]).reverse.map Version.rev).take
          laObjectMaxRevisionCount) := by
  have within : ((older.reverse.map Version.rev).take laObjectMaxRevisionCount).length ≤
      laObjectMaxRevisionCount := List.length_take_le _ _
  constructor
  · rw [storedDoc, List.reverse_append, List.reverse_singleton, List.singleton_append,
      laObjectMaxRevisionCount, List.getElem?_cons_succ]
    cases oldest : older.reverse[1023]? with
    | none =>
      have short : older.length ≤ 1023 := by simpa using oldest
      refine pushRow_doc heap laid owned oldrevs ?_
      rw [List.length_take, List.length_map, List.length_reverse, laObjectMaxRevisionCount]
      omega
    | some w =>
      have long : 1023 < older.length := by
        simpa using (List.getElem?_eq_some_iff.mp oldest).1
      have last : (older.reverse.map Version.rev).take laObjectMaxRevisionCount =
          (older.reverse.map Version.rev).take 1023 ++ [w.rev] := by
        rw [laObjectMaxRevisionCount, List.take_add_one, List.getElem?_map, oldest]
        rfl
      refine pushRow_doc_cap heap laid owned (last ▸ oldrevs) ?_
      rw [List.length_take, List.length_map, List.length_reverse, laObjectMaxRevisionCount]
      omega
  · rw [pushRow_oldrevs heap laid owned oldrevs within, rev, List.reverse_append,
      List.reverse_singleton, List.singleton_append, List.map_cons, laObjectMaxRevisionCount,
      List.take_succ_cons, List.take_succ_cons, List.take_take]
    rfl

/-- A successful put committed the row of a prepared object. -/
theorem putRow_cases {env : SqliteEnv} {key : CString} {i : Nat} {h h' : Sqlite3}
    {base : Option LaStorageRev} {v : Version} (fits : v.data.length < 2 ^ 32)
    (put : putRow env key i h base v = some h') :
    ∃ obj o, obj.key = key ∧ obj.header = ⟨0, 0, false, 0, v.rev⟩ ∧ LaidOut obj [] v.data ∧
      obj.alloc = v.data.length ∧ overruns h base obj = false ∧
      PreparedRow (env.calls i) h.visible base obj o ∧
      h' = ⟨h.visible.insertOrReplace key (rowOf o), none⟩ := by
  obtain ⟨obj, hplain, hkey, hheader, hlaid, halloc⟩ := plainObject_spec (env.block i) key fits
  simp only [putRow, hplain] at put
  split at put
  · cases put
  · rename_i inside
    split at put
    · cases put
    · rename_i ret h₁ ran
      split at put
      · rename_i success
        cases put
        obtain ⟨o, prepared, inserted⟩ := put_success ran success.1
        refine ⟨obj, o, hkey, hheader, hlaid, halloc, by simpa using inside, prepared, ?_⟩
        rw [inserted.handle, success.2, visible_begun, ← hkey, ← prepared.key]
        generalize h.visible.insertOrReplace o.key (rowOf o) = t
        cases hb : (begun i (env.calls i).begintxn h).txn <;> simp [ended, Sqlite3.update, hb]
      · cases put

/-- The row after one more put. -/
theorem putRow_after {env : SqliteEnv} {key : CString} {i : Nat} {h h' : Sqlite3}
    {base : Option LaStorageRev} {vs : List Version} {v : Version}
    (fits : v.data.length < 2 ^ 32) (after : RowAfter h key vs)
    (put : putRow env key i h base v = some h') : RowAfter h' key (vs ++ [v]) := by
  obtain ⟨obj, o, hkey, hheader, laid, owned, inside, prepared, rfl⟩ := putRow_cases fits put
  refine ⟨fun none => by simp at none, fun before last same => ⟨rfl, rowOf o, ?_, ?_, ?_⟩⟩
  · exact AList.lookup_insert _
  · have split := List.append_inj' same rfl
    obtain ⟨rfl, hlast⟩ := split
    cases hlast
    rw [rowOf, prepared.header.1, hheader]
  · obtain ⟨rfl, hlast⟩ := List.append_inj' same rfl
    cases hlast
    cases List.eq_nil_or_concat' vs with
    | inl empty =>
      subst empty
      cases prepared with
      | created =>
        have content : read obj.revsData 0 v.data.length = v.data := by
          simpa [revBytes] using laid.content
        refine ⟨?_, fun full => by simp at full, rfl⟩
        rw [rowOf_doc, ← laid.length] at *
        exact content
      | updated row found =>
        rw [hkey, after.absent rfl] at found
        cases found
    | inr parts =>
      obtain ⟨older, previous, rfl⟩ := parts
      obtain ⟨idle, row, found, rev, -, -, oldrevs⟩ := after.stored older previous rfl
      have shown : h.visible.docs.lookup obj.key = some row := by
        rw [hkey, Sqlite3.visible, idle]
        exact found
      cases prepared with
      | created absent =>
        rw [shown] at absent
        cases absent
      | updated row' found' base' =>
        rw [shown] at found'
        cases found'
        obtain ⟨doc, behind⟩ := pushRow_row (env.calls i).heap laid owned rev oldrevs
        refine ⟨doc, fun full => ?_, behind⟩
        have copied : copiesInside row obj = true := by
          simpa [overruns, shown, base'] using inside
        refine (copiesInside_iff laid oldrevs (List.length_take_le _ _)).mp copied ?_
        have long : laObjectMaxRevisionCount < (older ++ [previous]).reverse.length := by
          simpa using full
        rw [List.length_reverse, List.length_append, List.length_singleton] at long
        rw [List.length_take, List.length_map, List.length_reverse]
        omega

theorem putRows_after {env : SqliteEnv} {key : CString} {i : Nat} {h h' : Sqlite3}
    {base : Option LaStorageRev} {vs rest : List Version}
    (fits : ∀ v ∈ rest, v.data.length < 2 ^ 32) (after : RowAfter h key vs)
    (puts : putRows env key i h base rest = some h') : RowAfter h' key (vs ++ rest) := by
  induction rest generalizing i h base vs with
  | nil =>
    cases puts
    rwa [List.append_nil]
  | cons v rest ih =>
    simp only [putRows] at puts
    split at puts
    · cases puts
    · rename_i h₁ put
      have first := putRow_after (fits v List.mem_cons_self) after put
      have := ih (fun w hw => fits w (List.mem_cons_of_mem v hw)) first puts
      rwa [List.append_assoc, List.singleton_append] at this

/-- 16 bytes over the start of a document leave it as it was if they are its first bytes. -/
theorem overwritten_eq_iff {rev : LaStorageRev} {data : List UInt8} :
    (rev.rev ++ data.drop 16).take data.length = data ↔
      data.take 16 = rev.rev.take data.length := by
  by_cases short : data.length ≤ 16
  · rw [List.drop_of_length_le short, List.append_nil, List.take_of_length_le short]
    exact eq_comm
  · have whole : (rev.rev ++ data.drop 16).length ≤ data.length := by
      rw [List.length_append, rev.length_eq, List.length_drop]
      omega
    have sixteen : rev.rev.length ≤ data.length := by
      rw [rev.length_eq]
      omega
    rw [List.take_of_length_le whole, List.take_of_length_le sixteen]
    constructor
    · intro same
      rw [← same, List.take_left' rev.length_eq]
    · intro start
      rw [← start, List.take_append_drop]

theorem storedDoc_eq_iff (before : List Version) (v : Version) :
    storedDoc before v = v.data ↔
      ∀ oldest, before.reverse[laObjectMaxRevisionCount]? = some oldest →
        v.data.take 16 = oldest.rev.rev.take v.data.length := by
  rw [storedDoc]
  cases before.reverse[laObjectMaxRevisionCount]? with
  | none => simp
  | some oldest => simp [overwritten_eq_iff]

/-- The row of a chain is the promised one exactly if there is no revision the cap has pushed
out of the history, or it is what a document of at least its size begins with. -/
theorem putRows_row_iff {env : SqliteEnv} {key : CString} {h h' : Sqlite3}
    {base : Option LaStorageRev} {before : List Version} {last : Version}
    (fits : ∀ v ∈ before ++ [last], v.data.length < 2 ^ 32)
    (absent : h.visible.docs.lookup key = none)
    (puts : putRows env key 0 h base (before ++ [last]) = some h') :
    RowHolds h' key before last ↔
      ∀ oldest, before.reverse[laObjectMaxRevisionCount]? = some oldest →
        16 ≤ last.data.length ∧ last.data.take 16 = oldest.rev.rev := by
  have start : RowAfter h key [] := ⟨fun _ => absent, fun before last same => by simp at same⟩
  obtain ⟨-, row, found, rev, doc, room, oldrevs⟩ :=
    (putRows_after fits start puts).stored before last (List.nil_append _)
  have kept : RowHolds h' key before last ↔ storedDoc before last = last.data := by
    rw [← doc]
    constructor
    · rintro ⟨row', found', -, doc', -⟩
      rw [found] at found'
      cases found'
      exact doc'
    · exact fun same => ⟨row, found, rev, same, oldrevs⟩
  rw [kept, storedDoc_eq_iff]
  refine forall_congr' fun oldest => imp_congr_right fun pushed => ?_
  have sixteen : 16 ≤ last.data.length := room (by rw [pushed]; rfl)
  have whole : oldest.rev.rev.take last.data.length = oldest.rev.rev :=
    List.take_of_length_le (by rw [oldest.rev.length_eq]; exact sixteen)
  rw [whole]
  exact (and_iff_right sixteen).symm

/-- A row with a history that a chain of puts makes. -/
def HasHistory (row : DocsRow) : Prop :=
  ∃ history : List LaStorageRev, history.length ≤ laObjectMaxRevisionCount ∧
    row.oldrevs = revBytes history

/-- A put of a plain object on such a row makes one again, inside its block if the document has 16
bytes. -/
theorem prepared_hasHistory {c : SqliteCalls} {t : SqliteTables} {base : Option LaStorageRev}
    {obj o : LaStorageObject} {data : List UInt8} (laid : LaidOut obj [] data)
    (owned : obj.alloc = data.length) (roomy : 16 ≤ data.length)
    (behind : ∀ row, t.docs.lookup obj.key = some row → HasHistory row)
    (prepared : PreparedRow c t base obj o) :
    overruns ⟨t, none⟩ base obj = false ∧ HasHistory (rowOf o) := by
  have shown : (⟨t, none⟩ : Sqlite3).visible = t := rfl
  cases prepared with
  | created absent => exact ⟨by simp [overruns, shown, absent], [], Nat.zero_le _, rfl⟩
  | updated row found base' =>
    obtain ⟨history, within, oldrevs⟩ := behind row found
    have inside := (copiesInside_iff laid oldrevs within).mpr fun _ => roomy
    refine ⟨by simp [overruns, shown, found, inside], _, List.length_take_le _ _,
      pushRow_oldrevs c.heap laid owned oldrevs within⟩

/-- Where nothing fails and every document is long enough to be copied over and not too large to be
bound, every chain goes through. -/
theorem putRows_succeeds {env : SqliteEnv} (quiet : ∀ i, Succeed (env.calls i)) (key : CString)
    (i : Nat) (t : SqliteTables) (base : Option LaStorageRev) {vs : List Version}
    (fits : ∀ v ∈ vs, 16 ≤ v.data.length ∧ v.data.length < 2 ^ 31)
    (named : ∀ row, t.docs.lookup key = some row → base = some row.rev ∧ HasHistory row) :
    ∃ h', putRows env key i ⟨t, none⟩ base vs = some h' := by
  induction vs generalizing i t base with
  | nil => exact ⟨_, rfl⟩
  | cons v rest ih =>
    obtain ⟨roomy, small⟩ := fits v List.mem_cons_self
    obtain ⟨obj, hplain, hkey, hheader, laid, owned⟩ :=
      plainObject_spec (env.block i) key (v := v) (by omega)
    obtain ⟨o, prepared⟩ : ∃ o, PreparedRow (env.calls i) t base obj o := by
      cases found : t.docs.lookup obj.key with
      | none => exact ⟨_, .created found⟩
      | some row => exact ⟨_, .updated row found (named row (hkey ▸ found)).1⟩
    obtain ⟨inside, history⟩ := prepared_hasHistory laid owned roomy
      (fun row found => (named row (hkey ▸ found)).2) prepared
    have ran := put_prepared (quiet i) i prepared (by rw [laid.length]; exact small)
    have put : putRow env key i ⟨t, none⟩ base v =
        some ⟨t.insertOrReplace o.key (rowOf o), none⟩ := by
      simp [putRow, hplain, inside, ran, (quiet i).endtxn]
    have rev : (rowOf o).rev = v.rev := by
      rw [rowOf, prepared.header.1, hheader]
    have stored : (t.insertOrReplace o.key (rowOf o)).docs.lookup key = some (rowOf o) := by
      rw [← hkey, ← prepared.key]
      exact AList.lookup_insert _
    obtain ⟨h', puts⟩ := ih (i + 1) (t.insertOrReplace o.key (rowOf o)) (some v.rev)
      (fun w hw => fits w (List.mem_cons_of_mem v hw)) (by
        intro row found
        rw [stored] at found
        cases found
        exact ⟨by rw [rev], history⟩)
    exact ⟨h', by simp [putRows, put, puts]⟩

section Cap

private def quietEnv : SqliteEnv := ⟨fun _ => {}, fun _ _ => 0⟩

private theorem quietEnv_succeed (i : Nat) : Succeed (quietEnv.calls i) := succeed_default

private def letter : CString := CString.ofBytes [97]

/-- A version with a document of 16 bytes. -/
private def version (n : UInt8) : Version := ⟨uniformRev n, List.replicate 16 n⟩

/-- Two puts: the second row has the first revision behind it. -/
theorem putRows_row_two :
    ∃ h', putRows quietEnv letter 0 freshHandle none ([version 1] ++ [version 2]) = some h' ∧
      RowHolds h' letter [version 1] (version 2) := by
  have fits : ∀ v ∈ [version 1] ++ [version 2], 16 ≤ v.data.length ∧ v.data.length < 2 ^ 31 := by
    decide
  obtain ⟨h', puts⟩ := putRows_succeeds quietEnv_succeed letter 0 sqliteEmpty none fits
    (fun row found => by cases found)
  refine ⟨h', puts, (putRows_row_iff (by decide) (by decide) puts).mpr ?_⟩
  intro oldest found
  cases found

/-- The versions before the first put that meets a full history. -/
private def pastCap : List Version := List.replicate 1025 (version 0)

/-- Its document of 16 bytes is stored as the oldest revision. -/
theorem put_past_cap_garbled :
    ∃ h', putRows quietEnv letter 0 freshHandle none (pastCap ++ [version 1]) = some h' ∧
      ¬RowHolds h' letter pastCap (version 1) := by
  have fits : ∀ v ∈ pastCap ++ [version 1], 16 ≤ v.data.length ∧ v.data.length < 2 ^ 31 := by
    intro v hv
    rcases List.mem_append.mp hv with hv | hv
    · rw [List.eq_of_mem_replicate hv]
      decide
    · rw [List.mem_singleton.mp hv]
      decide
  obtain ⟨h', puts⟩ := putRows_succeeds quietEnv_succeed letter 0 sqliteEmpty none fits
    (fun row found => by cases found)
  have start : RowAfter freshHandle letter [] :=
    ⟨fun _ => by decide, fun before last same => by simp at same⟩
  obtain ⟨-, row, found, -, doc, -⟩ := (putRows_after (fun v hv => by
    have := (fits v hv).2
    omega) start puts).stored pastCap _ (List.nil_append _)
  refine ⟨h', puts, ?_⟩
  rintro ⟨row', found', -, doc', -⟩
  rw [found] at found'
  cases found'
  have oldest : pastCap.reverse[laObjectMaxRevisionCount]? = some (version 0) := by
    rw [pastCap, List.reverse_replicate, List.getElem?_replicate]
    rfl
  rw [doc, storedDoc_eq_iff] at doc'
  exact absurd (doc' _ oldest) (by decide)

end Cap

end SqliteChains
