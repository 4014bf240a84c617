import Lounge.Storage.SqliteDriver

/-!
# What one SQLite write does

The writes run alone on a handle: one inversion lemma for each, with what the handle
shows before and after. Everything later about single writes is derived from these.
-/

namespace SqlitePut
open FlatMemory ObjectStore Process SqliteDriver

@[simp] theorem visible_idle (t : SqliteTables) : (Sqlite3.mk t none).visible = t := rfl

@[simp] theorem visible_inside (t w : SqliteTables) (who : Nat) :
    (Sqlite3.mk t (some (who, w))).visible = w := rfl

@[simp] theorem visible_update (h : Sqlite3) (t : SqliteTables) : (h.update t).visible = t := by
  obtain ⟨committed, txn⟩ := h
  cases txn <;> rfl

/-- The handle after `BEGIN`. -/
def begun (who : Nat) (outcome : SqlOutcome) (h : Sqlite3) : Sqlite3 :=
  if outcome = .ok ∧ h.txn.isNone then { h with txn := some (who, h.committed) } else h

/-- The handle after `COMMIT`. -/
def ended (outcome : SqlOutcome) (h : Sqlite3) : Sqlite3 :=
  match h.txn with
  | none => h
  | some (_, t) => if outcome = .ok then ⟨t, none⟩ else h.fail outcome

/-- The handle after `ROLLBACK`. -/
def undone (outcome : SqlOutcome) (h : Sqlite3) : Sqlite3 :=
  match h.txn with
  | none => h
  | some _ => if outcome = .ok then { h with txn := none } else h.fail outcome

@[simp] theorem visible_begun (who : Nat) (outcome : SqlOutcome) (h : Sqlite3) :
    (begun who outcome h).visible = h.visible := by
  obtain ⟨committed, txn⟩ := h
  cases txn with
  | none => by_cases ok : outcome = .ok <;> simp [begun, ok]
  | some t => simp [begun]

/-- A `COMMIT` that does not throw the transaction away leaves what the handle shows. -/
theorem visible_ended {outcome : SqlOutcome} (keeps : outcome ≠ .rolledBack) (h : Sqlite3) :
    (ended outcome h).visible = h.visible := by
  obtain ⟨committed, txn⟩ := h
  cases txn with
  | none => rfl
  | some t =>
    cases outcome with
    | ok => rfl
    | failed => rfl
    | rolledBack => exact absurd rfl keeps

theorem run_begintxn (who : Nat) (outcome : SqlOutcome) (k : Bool → PutProc) (h : Sqlite3) :
    ∃ began, run serveSql (.call (.begintxn who outcome) k) h =
      run serveSql (k began) (begun who outcome h) := by
  by_cases ok : outcome = .ok ∧ h.txn.isNone
  · exact ⟨true, by simp [run, serveSql, begun, ok]⟩
  · exact ⟨false, by simp only [run, serveSql, begun, if_neg ok]⟩

/-- A function that rolls back returns what it set out to return. -/
theorem run_rollbackReturn (c : SqliteCalls) (result : LaStorageObjectPutResult)
    (obj : LaStorageObject) (h : Sqlite3) :
    run serveSql (rollbackReturn c result obj) h = some (⟨result, obj⟩, undone c.rollback h) := by
  obtain ⟨committed, txn⟩ := h
  cases txn with
  | none => rfl
  | some t => by_cases ok : c.rollback = .ok <;> simp [rollbackReturn, run, serveSql, undone, ok]

theorem run_endtxn (outcome : SqlOutcome) (ret : SqlitePutReturn) (h : Sqlite3) :
    run serveSql (.call (.endtxn outcome) fun _ => .done ret : PutProc) h =
      some (ret, ended outcome h) := by
  obtain ⟨committed, txn⟩ := h
  cases txn with
  | none => rfl
  | some t => by_cases ok : outcome = .ok <;> simp [run, serveSql, ended, ok]

/-- A write that stored `o` and what the handle is then. -/
structure Inserted (c : SqliteCalls) (h : Sqlite3) (o : LaStorageObject) (ret : SqlitePutReturn)
    (h' : Sqlite3) : Prop where
  returned : ret = ⟨.success, o⟩
  bound : bindsPutdoc c o = true
  handle : h' = ended c.endtxn (h.update (h.visible.insertOrReplace o.key (rowOf o)))

theorem run_putdocReturn {c : SqliteCalls} {o : LaStorageObject} {h h' : Sqlite3}
    {ret : SqlitePutReturn} (ran : run serveSql (putdocReturn c o) h = some (ret, h'))
    (success : ret.result = .success) : Inserted c h o ret h' := by
  have refused : ∀ h₁, run serveSql (rollbackReturn c .error o) h₁ ≠ some (ret, h') := by
    intro h₁ same
    rw [run_rollbackReturn] at same
    cases same
    cases success
  cases bound : (!c.preparePutdoc || !bindsPutdoc c o) with
  | true =>
    rw [putdocReturn, if_pos bound] at ran
    exact absurd ran (refused h)
  | false =>
    rw [putdocReturn, if_neg (by simp [bound])] at ran
    by_cases ok : c.putdoc = .ok
    · simp only [run, serveSql, if_pos ok, insertedReturn] at ran
      rw [if_pos trivial, run_endtxn] at ran
      simp only [Bool.or_eq_false_iff, Bool.not_eq_false'] at bound
      cases ran
      exact ⟨rfl, bound.2, rfl⟩
    · simp only [run, serveSql, if_neg ok, insertedReturn] at ran
      exact absurd ran (refused _)

/-- The object that a successful put has stored. -/
inductive PreparedRow (c : SqliteCalls) (t : SqliteTables) (rev : Option LaStorageRev)
    (obj : LaStorageObject) : LaStorageObject → Prop
  | created (absent : t.docs.lookup obj.key = none) :
      PreparedRow c t rev obj { obj with
        header := { obj.header with revCount := 0, seq := UInt64.ofNat t.metaSeq } }
  | updated (row : DocsRow) (found : t.docs.lookup obj.key = some row)
      (base : rev = some row.rev) :
      PreparedRow c t rev obj { pushRow c.heap row obj with
        header := { (pushRow c.heap row obj).header with seq := UInt64.ofNat t.metaSeq } }

theorem PreparedRow.key {c : SqliteCalls} {t : SqliteTables} {rev : Option LaStorageRev}
    {obj o : LaStorageObject} (h : PreparedRow c t rev obj o) : o.key = obj.key := by
  cases h <;> rfl

/-- What a put does not touch: revision, deleted bit, document number and length. -/
theorem PreparedRow.header {c : SqliteCalls} {t : SqliteTables} {rev : Option LaStorageRev}
    {obj o : LaStorageObject} (h : PreparedRow c t rev obj o) :
    o.header.rev = obj.header.rev ∧ o.header.deleted = obj.header.deleted ∧
      o.header.docSeq = obj.header.docSeq ∧ o.dataLength = obj.dataLength ∧
      o.header.seq = UInt64.ofNat t.metaSeq := by
  cases h <;> exact ⟨rfl, rfl, rfl, rfl, rfl⟩

/-- A put that reports a success has stored a prepared object. -/
theorem put_success {who : Nat} {c : SqliteCalls} {rev : Option LaStorageRev}
    {obj : LaStorageObject} {h h' : Sqlite3} {ret : SqlitePutReturn}
    (ran : run serveSql (sqliteLaStoragePut who c rev obj) h = some (ret, h'))
    (success : ret.result = .success) :
    ∃ o, PreparedRow c h.visible rev obj o ∧ Inserted c (begun who c.begintxn h) o ret h' := by
  have refused : ∀ {result o h₁}, result ≠ .success →
      run serveSql (rollbackReturn c result o) h₁ ≠ some (ret, h') := by
    intro result o h₁ ne same
    rw [run_rollbackReturn] at same
    cases same
    exact ne success
  obtain ⟨began, first⟩ := run_begintxn who c.begintxn _ h
  rw [sqliteLaStoragePut, first] at ran
  have shown := visible_begun who c.begintxn h
  generalize begun who c.begintxn h = h₁ at ran shown ⊢
  rw [← shown]
  cases prepared : c.prepareGetseq with
  | false =>
    rw [if_pos (by simp [prepared])] at ran
    cases ran
    cases success
  | true =>
    rw [if_neg (by simp [prepared])] at ran
    by_cases read : c.getseq = .ok
    · simp only [run, serveSql, if_pos read, numberedReturn] at ran
      split at ran
      · exact absurd ran (refused (by decide))
      · by_cases looked : c.getmeta = .ok
        · simp only [run, serveSql, if_pos looked] at ran
          cases found : h₁.visible.docs.lookup obj.key with
          | none =>
            simp only [found, Option.elim_none, comparedReturn] at ran
            exact ⟨_, .created found, run_putdocReturn ran success⟩
          | some row =>
            simp only [found, Option.elim_some, comparedReturn] at ran
            split at ran
            · exact absurd ran (refused (by decide))
            · rename_i base
              split at ran
              · exact absurd ran (refused (by decide))
              · exact ⟨_, .updated row found (not_not.mp base), run_putdocReturn ran success⟩
        · simp only [run, serveSql, if_neg looked, comparedReturn] at ran
          exact absurd ran (refused (by decide))
    · simp only [run, serveSql, if_neg read, numberedReturn] at ran
      exact absurd ran (refused (by decide))

theorem replace_success {who : Nat} {c : SqliteCalls} {obj : LaStorageObject}
    {h h' : Sqlite3} {ret : SqlitePutReturn}
    (ran : run serveSql (sqliteLaStorageReplace who c obj) h = some (ret, h'))
    (success : ret.result = .success) : Inserted c (begun who c.begintxn h) obj ret h' := by
  obtain ⟨began, first⟩ := run_begintxn who c.begintxn _ h
  rw [sqliteLaStorageReplace, first] at ran
  split at ran
  · exact run_putdocReturn ran success
  · cases ran
    cases success

/-- What the handle shows after a write whose `COMMIT` keeps the transaction. -/
theorem Inserted.visible {c : SqliteCalls} {who : Nat} {h h' : Sqlite3} {o : LaStorageObject}
    {ret : SqlitePutReturn} (inserted : Inserted c (begun who c.begintxn h) o ret h')
    (keeps : c.endtxn ≠ .rolledBack) :
    h'.visible = h.visible.insertOrReplace o.key (rowOf o) := by
  rw [inserted.handle, visible_ended keeps, visible_update, visible_begun]

/-- No call fails, and neither does the allocation. -/
structure Succeed (c : SqliteCalls) : Prop where
  begintxn : c.begintxn = .ok
  prepareGetseq : c.prepareGetseq = true
  getseq : c.getseq = .ok
  prepareGetmeta : c.prepareGetmeta = true
  bindGetmeta : c.bindGetmeta = true
  getmeta : c.getmeta = .ok
  allocated : c.allocated = true
  preparePutdoc : c.preparePutdoc = true
  bindPutdoc : ∀ column, c.bindPutdoc column = true
  putdoc : c.putdoc = .ok
  endtxn : c.endtxn = .ok
  rollback : c.rollback = .ok

theorem succeed_default : Succeed {} := by
  constructor
  all_goals first | rfl | exact fun _ => rfl

section Quiet
variable {c : SqliteCalls} (quiet : Succeed c) (who : Nat) {t : SqliteTables}
  {rev : Option LaStorageRev} {obj : LaStorageObject}

include quiet

theorem run_putdocReturn_quiet {o : LaStorageObject} (small : o.dataLength.toNat < 2 ^ 31)
    (t w : SqliteTables) :
    run serveSql (putdocReturn c o) ⟨t, some (who, w)⟩ =
      some (⟨.success, o⟩, ⟨w.insertOrReplace o.key (rowOf o), none⟩) := by
  have binds : bindsPutdoc c o = true := by
    simpa [bindsPutdoc, quiet.bindPutdoc] using small
  simp [putdocReturn, insertedReturn, quiet.preparePutdoc, binds, run, serveSql, quiet.putdoc,
    quiet.endtxn, Sqlite3.update]

/-- A put that meets no failure stores what it prepares. -/
theorem put_prepared {o : LaStorageObject} (prepared : PreparedRow c t rev obj o)
    (small : obj.dataLength.toNat < 2 ^ 31) :
    run serveSql (sqliteLaStoragePut who c rev obj) ⟨t, none⟩ =
      some (⟨.success, o⟩, ⟨t.insertOrReplace o.key (rowOf o), none⟩) := by
  have length := prepared.header.2.2.2.1
  rw [← run_putdocReturn_quiet quiet who (length ▸ small) t t]
  cases prepared with
  | created absent =>
    simp [sqliteLaStoragePut, numberedReturn, comparedReturn, run, serveSql, quiet.begintxn,
      quiet.prepareGetseq, quiet.getseq, quiet.prepareGetmeta, quiet.bindGetmeta, quiet.getmeta,
      absent]
  | updated row found base =>
    simp [sqliteLaStoragePut, numberedReturn, comparedReturn, run, serveSql, quiet.begintxn,
      quiet.prepareGetseq, quiet.getseq, quiet.prepareGetmeta, quiet.bindGetmeta, quiet.getmeta,
      quiet.allocated, found, base]

/-- A put with a base other than the stored revision is a conflict and changes nothing. -/
theorem put_conflict {row : DocsRow} (found : t.docs.lookup obj.key = some row)
    (base : rev ≠ some row.rev) :
    run serveSql (sqliteLaStoragePut who c rev obj) ⟨t, none⟩ =
      some (⟨.conflict, obj⟩, ⟨t, none⟩) := by
  simp [sqliteLaStoragePut, numberedReturn, comparedReturn, rollbackReturn, run, serveSql,
    quiet.begintxn, quiet.prepareGetseq, quiet.getseq, quiet.prepareGetmeta, quiet.bindGetmeta,
    quiet.getmeta, quiet.rollback, found, base]

end Quiet

end SqlitePut
