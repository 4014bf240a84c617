import Lounge.Lib.Runs
import Lounge.Storage.SqliteDriver
import Mathlib.Logic.Function.Basic

/-!
# Puts that share a handle

Any number of threads put on one handle, one call each at a time. The handle has one
transaction, and a put goes on whether or not its `BEGIN` succeeded, so a put may compare,
insert and commit in the transaction of another.
-/

namespace SqliteTransactions
open ObjectStore Process SqliteDriver Runs

/-- What one thread asks for. -/
structure PutCall where
  calls : SqliteCalls
  rev : Option LaStorageRev
  obj : LaStorageObject

/-- The handle, and what is left of each thread's put. -/
structure Shared where
  handle : Sqlite3
  puts : Nat → PutProc

/-- One call of a thread. -/
def sharedStep (s : Shared) (thread : Nat) : Option SqlCall × Shared :=
  let move := advance serveSql s.handle (s.puts thread)
  (move.1, ⟨move.2.1, Function.update s.puts thread move.2.2⟩)

abbrev SharedEvent := Event Shared Nat (Option SqlCall)

/-- Every thread is about to put, and no transaction is open. -/
def start (tables : SqliteTables) (asked : Nat → PutCall) : Shared where
  handle := ⟨tables, none⟩
  puts := fun t => sqliteLaStoragePut t (asked t).calls (asked t).rev (asked t).obj

/-- The thread whose `BEGIN` opened the transaction. -/
def owner (h : Sqlite3) : Option Nat := h.txn.map Prod.fst

/-- `t` opens its transaction. -/
def Begins (t : Nat) (e : SharedEvent) : Prop :=
  e.input = t ∧ owner e.before.handle ≠ some t ∧ owner e.after.handle = some t

/-- `t` looks its key up in its transaction. -/
def Compares (t : Nat) (e : SharedEvent) : Prop :=
  e.input = t ∧ owner e.before.handle = some t ∧
    ∃ outcome key, e.output = some (.getmeta outcome key)

/-- `t` inserts its row in its transaction. -/
def Inserts (t : Nat) (e : SharedEvent) : Prop :=
  e.input = t ∧ owner e.before.handle = some t ∧ ∃ key row, e.output = some (.putdoc .ok key row)

/-- `t` commits its transaction. -/
def Commits (t : Nat) (e : SharedEvent) : Prop :=
  e.input = t ∧ ∃ w, e.before.handle.txn = some (t, w) ∧ e.after.handle = ⟨w, none⟩

/-- The event neither commits what `t` did nor changes, by `t`, what is not its own. -/
def Spares (t : Nat) (e : SharedEvent) : Prop :=
  (e.input = t ∨ owner e.before.handle = some t →
    e.after.handle.committed = e.before.handle.committed) ∧
  (e.input = t → owner e.before.handle ≠ some t →
    e.after.handle.visible = e.before.handle.visible)

/-- What the events of a run say of the put of `t` that returned `result`. -/
structure Transactional (t : Nat) (es : List SharedEvent) (s : Shared)
    (result : LaStorageObjectPutResult) : Prop where
  isolated : result = .success → ∃ e₀ e₁ e₂ e₃, [e₀, e₁, e₂, e₃].Sublist es ∧
    Begins t e₀ ∧ Compares t e₁ ∧ Inserts t e₂ ∧ Commits t e₃
  closed : owner s.handle ≠ some t
  unchanged : result ≠ .success → ∀ e ∈ es, Spares t e

/-- `BEGIN` and `COMMIT` succeed; `ROLLBACK` ends the put's own transaction or finds none. -/
def CallHolds (h : Sqlite3) (t : Nat) : Option SqlCall → Prop
  | some (.begintxn _ outcome) => outcome = .ok ∧ owner h = none
  | some (.endtxn outcome) => outcome = .ok
  | some (.rollback outcome) => owner h = none ∨ outcome ≠ .failed ∧ owner h = some t
  | _ => True

instance (h : Sqlite3) (t : Nat) (call : Option SqlCall) : Decidable (CallHolds h t call) :=
  match call with
  | some (.begintxn _ _) => inferInstanceAs (Decidable (_ ∧ _))
  | some (.endtxn _) => inferInstanceAs (Decidable (_ = _))
  | some (.rollback _) => inferInstanceAs (Decidable (_ ∨ _ ∧ _))
  | some (.getseq _) => inferInstanceAs (Decidable True)
  | some (.getmeta _ _) => inferInstanceAs (Decidable True)
  | some (.putdoc _ _ _) => inferInstanceAs (Decidable True)
  | none => inferInstanceAs (Decidable True)

/-- The condition: besides, the put could prepare `getseq`. -/
def Fair (asked : Nat → PutCall) (e : SharedEvent) : Prop :=
  (asked e.input).calls.prepareGetseq = true ∧ CallHolds e.before.handle e.input e.output

instance (asked : Nat → PutCall) (e : SharedEvent) : Decidable (Fair asked e) :=
  inferInstanceAs (Decidable (_ ∧ _))

/-- Where the put of a thread stands, and what the run so far says of it. -/
inductive Stage (asked : Nat → PutCall) (t : Nat) (past : List SharedEvent) (s : Shared) : Prop
  | waiting
      (here : s.puts t = sqliteLaStoragePut t (asked t).calls (asked t).rev (asked t).obj)
      (outside : owner s.handle ≠ some t) (spared : ∀ e ∈ past, Spares t e)
  | numbering
      (here : s.puts t = .call (.getseq (asked t).calls.getseq)
        (numberedReturn (asked t).calls (asked t).rev (asked t).obj))
      (inside : owner s.handle = some t) (spared : ∀ e ∈ past, Spares t e)
      (began : ∃ e₀, [e₀].Sublist past ∧ Begins t e₀)
  | comparing (seq : UInt64)
      (here : s.puts t = .call (.getmeta (asked t).calls.getmeta (asked t).obj.key)
        (comparedReturn (asked t).calls (asked t).rev (asked t).obj seq))
      (inside : owner s.handle = some t) (spared : ∀ e ∈ past, Spares t e)
      (began : ∃ e₀, [e₀].Sublist past ∧ Begins t e₀)
  | storing (o : LaStorageObject)
      (here : s.puts t = .call (.putdoc (asked t).calls.putdoc o.key (rowOf o))
        (insertedReturn (asked t).calls o))
      (inside : owner s.handle = some t) (spared : ∀ e ∈ past, Spares t e)
      (compared : ∃ e₀ e₁, [e₀, e₁].Sublist past ∧ Begins t e₀ ∧ Compares t e₁)
  | ending (o : LaStorageObject)
      (here : s.puts t = .call (.endtxn (asked t).calls.endtxn) fun _ => .done ⟨.success, o⟩)
      (inside : owner s.handle = some t)
      (inserted : ∃ e₀ e₁ e₂, [e₀, e₁, e₂].Sublist past ∧
        Begins t e₀ ∧ Compares t e₁ ∧ Inserts t e₂)
  | undoing (result : LaStorageObjectPutResult) (o : LaStorageObject)
      (here : s.puts t = rollbackReturn (asked t).calls result o) (ne : result ≠ .success)
      (spared : ∀ e ∈ past, Spares t e)
  | returned (ret : SqlitePutReturn) (here : s.puts t = .done ret)
      (safe : Transactional t past s ret.result)

/-- A thread only ever works in its own transaction or where there is none. -/
def Minds (t : Nat) (s s' : Shared) : Prop :=
  (owner s.handle = some t ∨ owner s.handle = none ∨ s'.handle = s.handle) ∧
    (owner s'.handle = some t ∨ owner s'.handle = none ∨ s'.handle = s.handle)

theorem owner_update (h : Sqlite3) (tables : SqliteTables) :
    owner (h.update tables) = owner h := by
  obtain ⟨committed, txn⟩ := h
  cases txn <;> rfl

theorem committed_fail (h : Sqlite3) (outcome : SqlOutcome) :
    (h.fail outcome).committed = h.committed := by
  cases outcome <;> rfl

theorem owner_fail (h : Sqlite3) (outcome : SqlOutcome) :
    owner (h.fail outcome) = owner h ∨ owner (h.fail outcome) = none := by
  cases outcome
  · exact Or.inl rfl
  · exact Or.inl rfl
  · exact Or.inr rfl

theorem sharedStep_call {s : Shared} {t : Nat} {c : SqlCall} {k : SqlReply c → PutProc}
    {r : SqlReply c} {h : Sqlite3} (here : s.puts t = .call c k)
    (served : serveSql c s.handle = some (r, h)) :
    sharedStep s t = (some c, ⟨h, Function.update s.puts t (k r)⟩) := by
  simp [sharedStep, here, advance, served]

section Served
variable (h : Sqlite3)

theorem serve_getseq (outcome : SqlOutcome) :
    ∃ r h', serveSql (.getseq outcome) h = some (r, h') ∧ h'.committed = h.committed ∧
      (r ≠ none → h' = h) ∧ (owner h' = owner h ∨ owner h' = none) := by
  by_cases ok : outcome = .ok
  · exact ⟨_, h, if_pos ok, rfl, fun _ => rfl, Or.inl rfl⟩
  · exact ⟨none, h.fail outcome, if_neg ok, committed_fail h outcome,
      fun some => absurd rfl some, owner_fail h outcome⟩

theorem serve_getmeta (outcome : SqlOutcome) (key : CString) :
    ∃ r h', serveSql (.getmeta outcome key) h = some (r, h') ∧ h'.committed = h.committed ∧
      (r ≠ .error → h' = h) ∧ (owner h' = owner h ∨ owner h' = none) := by
  by_cases ok : outcome = .ok
  · exact ⟨_, h, if_pos ok, rfl, fun _ => rfl, Or.inl rfl⟩
  · exact ⟨.error, h.fail outcome, if_neg ok, committed_fail h outcome,
      fun row => absurd rfl row, owner_fail h outcome⟩

/-- Inside a transaction an insert stays in it. -/
theorem serve_putdoc {t : Nat} (inside : owner h = some t) (outcome : SqlOutcome) (key : CString)
    (row : DocsRow) :
    ∃ r h', serveSql (.putdoc outcome key row) h = some (r, h') ∧
      h'.committed = h.committed ∧ (r = true → outcome = .ok ∧ owner h' = some t) ∧
      (owner h' = some t ∨ owner h' = none) := by
  by_cases ok : outcome = .ok
  · have stays : owner (h.update (h.visible.insertOrReplace key row)) = some t := by
      rw [owner_update, inside]
    have apart : (h.update (h.visible.insertOrReplace key row)).committed = h.committed := by
      obtain ⟨committed, txn⟩ := h
      cases txn with
      | none => cases inside
      | some open_ => rfl
    exact ⟨true, _, if_pos ok, apart, fun _ => ⟨ok, stays⟩, Or.inl stays⟩
  · have kept := owner_fail h outcome
    rw [inside] at kept
    exact ⟨false, h.fail outcome, if_neg ok, committed_fail h outcome, nofun, kept⟩

/-- A `COMMIT` that succeeds writes the transaction through. -/
theorem serve_endtxn {t : Nat} (inside : owner h = some t) :
    ∃ w, h.txn = some (t, w) ∧ serveSql (.endtxn .ok) h = some (true, ⟨w, none⟩) := by
  obtain ⟨committed, txn⟩ := h
  cases txn with
  | none => cases inside
  | some open_ =>
    obtain ⟨who, w⟩ := open_
    cases inside
    exact ⟨w, rfl, rfl⟩

/-- A `ROLLBACK` that does not fail ends the transaction and commits nothing. -/
theorem serve_rollback {outcome : SqlOutcome} (ends : owner h = none ∨ outcome ≠ .failed) :
    ∃ r h', serveSql (.rollback outcome) h = some (r, h') ∧ h'.committed = h.committed ∧
      owner h' = none ∧ (owner h = none → h' = h) := by
  obtain ⟨committed, txn⟩ := h
  cases txn with
  | none => exact ⟨false, ⟨committed, none⟩, rfl, rfl, rfl, fun _ => rfl⟩
  | some open_ =>
    have inside : owner ⟨committed, some open_⟩ ≠ none := by simp [owner]
    cases outcome with
    | ok => exact ⟨true, ⟨committed, none⟩, rfl, rfl, rfl, fun idle => absurd idle inside⟩
    | failed => exact absurd rfl (ends.resolve_left inside)
    | rolledBack => exact ⟨false, ⟨committed, none⟩, rfl, rfl, rfl, fun idle => absurd idle inside⟩

theorem serve_begintxn (t : Nat) (idle : owner h = none) :
    serveSql (.begintxn t .ok) h = some (true, ⟨h.committed, some (t, h.committed)⟩) := by
  obtain ⟨committed, txn⟩ := h
  cases txn with
  | none => rfl
  | some open_ => cases idle

end Served

section Step
variable {asked : Nat → PutCall} {t : Nat} {past : List SharedEvent} {s : Shared}

theorem spared_snoc {e : SharedEvent} (spared : ∀ e ∈ past, Spares t e) (last : Spares t e) :
    ∀ e' ∈ past ++ [e], Spares t e' := by
  intro e' he
  rcases List.mem_append.mp he with he | he
  · exact spared e' he
  · rw [List.mem_singleton.mp he]
    exact last

/-- Inside its transaction, a call that commits nothing spares everything. -/
theorem spares_inside (inside : owner s.handle = some t)
    (same : (sharedStep s t).2.handle.committed = s.handle.committed) :
    Spares t (event sharedStep s t) :=
  ⟨fun _ => same, fun _ outside => absurd inside outside⟩

/-- What the thread goes on with is rolled back or stored. -/
theorem stage_putdocReturn {o : LaStorageObject}
    (here : s.puts t = putdocReturn (asked t).calls o) (inside : owner s.handle = some t)
    (spared : ∀ e ∈ past, Spares t e)
    (compared : ∃ e₀ e₁, [e₀, e₁].Sublist past ∧ Begins t e₀ ∧ Compares t e₁) :
    Stage asked t past s := by
  rw [putdocReturn] at here
  split at here
  · exact .undoing .error o here (by decide) spared
  · exact .storing o here inside spared compared

theorem stage_comparedReturn {seq : UInt64} {reply : RowReply}
    (here : s.puts t = comparedReturn (asked t).calls (asked t).rev (asked t).obj seq reply)
    (inside : reply ≠ .error → owner s.handle = some t) (spared : ∀ e ∈ past, Spares t e)
    (compared : ∃ e₀ e₁, [e₀, e₁].Sublist past ∧ Begins t e₀ ∧ Compares t e₁) :
    Stage asked t past s := by
  cases reply with
  | error => exact .undoing .error _ here (by decide) spared
  | done => exact stage_putdocReturn here (inside (by simp)) spared compared
  | row row =>
    rw [comparedReturn] at here
    split at here
    · exact .undoing .conflict _ here (by decide) spared
    · split at here
      · exact .undoing .error _ here (by decide) spared
      · exact stage_putdocReturn here (inside (by simp)) spared compared

theorem stage_numberedReturn {reply : Option UInt64}
    (here : s.puts t = numberedReturn (asked t).calls (asked t).rev (asked t).obj reply)
    (inside : reply ≠ none → owner s.handle = some t) (spared : ∀ e ∈ past, Spares t e)
    (began : ∃ e₀, [e₀].Sublist past ∧ Begins t e₀) : Stage asked t past s := by
  cases reply with
  | none => exact .undoing .error _ here (by decide) spared
  | some seq =>
    rw [numberedReturn] at here
    split at here
    · exact .undoing .error _ here (by decide) spared
    · exact .comparing seq here (inside (by simp)) spared began

/-- What the condition says of the call that the thread makes. -/
theorem fair_call {c : SqlCall} {k : SqlReply c → PutProc} (here : s.puts t = .call c k)
    (fair : Fair asked (event sharedStep s t)) : CallHolds s.handle t (some c) := by
  have output : (sharedStep s t).1 = some c := by
    simp only [sharedStep, here, advance]
    split <;> rfl
  have holds := fair.2
  simp only [event, output] at holds
  exact holds

theorem grows {es : List SharedEvent} (sub : es.Sublist past) (e : SharedEvent) :
    es.Sublist (past ++ [e]) :=
  sub.trans (List.sublist_append_left past _)

theorem joins {es : List SharedEvent} (sub : es.Sublist past) (e : SharedEvent) :
    (es ++ [e]).Sublist (past ++ [e]) :=
  sub.append (List.Sublist.refl _)

/-- The thread's call takes its put to another stage and minds its own transaction. -/
def Advances (asked : Nat → PutCall) (t : Nat) (past : List SharedEvent) (s : Shared) : Prop :=
  Stage asked t (past ++ [event sharedStep s t]) (sharedStep s t).2 ∧ Minds t s (sharedStep s t).2

theorem waiting_advances
    (here : s.puts t = sqliteLaStoragePut t (asked t).calls (asked t).rev (asked t).obj)
    (outside : owner s.handle ≠ some t) (spared : ∀ e ∈ past, Spares t e)
    (fair : Fair asked (event sharedStep s t)) : Advances asked t past s := by
  obtain ⟨ok, idle⟩ := fair_call here fair
  rw [sqliteLaStoragePut, ok] at here
  have step := sharedStep_call here (serve_begintxn s.handle t idle)
  have shown : s.handle.visible = s.handle.committed := by
    rw [Sqlite3.visible, Option.map_eq_none_iff.mp idle]
    rfl
  have spares : Spares t (event sharedStep s t) := by
    simp only [Spares, event, step]
    exact ⟨fun _ => trivial, fun _ _ => shown.symm⟩
  have begins : Begins t (event sharedStep s t) := by
    simp only [Begins, event, step]
    exact ⟨trivial, outside, rfl⟩
  have prepared : (asked t).calls.prepareGetseq = true := fair.1
  constructor
  · apply Stage.numbering
    · simp [step, prepared]
    · rw [step]
      rfl
    · exact spared_snoc spared spares
    · exact ⟨_, joins (List.nil_sublist _) _, begins⟩
  · rw [step]
    exact ⟨Or.inr (Or.inl idle), Or.inl rfl⟩

theorem numbering_advances
    (here : s.puts t = .call (.getseq (asked t).calls.getseq)
      (numberedReturn (asked t).calls (asked t).rev (asked t).obj))
    (inside : owner s.handle = some t) (spared : ∀ e ∈ past, Spares t e)
    (began : ∃ e₀, [e₀].Sublist past ∧ Begins t e₀) : Advances asked t past s := by
  obtain ⟨r, h, served, same, keeps, own⟩ := serve_getseq s.handle (asked t).calls.getseq
  have step := sharedStep_call here served
  have spares := spares_inside inside (by rw [step]; exact same)
  obtain ⟨e₀, sub, begins⟩ := began
  constructor
  · apply stage_numberedReturn
    · rw [step]
      exact Function.update_self ..
    · intro some
      rw [step, keeps some]
      exact inside
    · exact spared_snoc spared spares
    · exact ⟨e₀, grows sub _, begins⟩
  · rw [step]
    rw [inside] at own
    exact ⟨Or.inl inside, own.imp_right Or.inl⟩

theorem comparing_advances {seq : UInt64}
    (here : s.puts t = .call (.getmeta (asked t).calls.getmeta (asked t).obj.key)
      (comparedReturn (asked t).calls (asked t).rev (asked t).obj seq))
    (inside : owner s.handle = some t) (spared : ∀ e ∈ past, Spares t e)
    (began : ∃ e₀, [e₀].Sublist past ∧ Begins t e₀) : Advances asked t past s := by
  obtain ⟨r, h, served, same, keeps, own⟩ :=
    serve_getmeta s.handle (asked t).calls.getmeta (asked t).obj.key
  have step := sharedStep_call here served
  have spares := spares_inside inside (by rw [step]; exact same)
  have compares : Compares t (event sharedStep s t) := by
    simp only [Compares, event, step]
    exact ⟨trivial, inside, _, _, rfl⟩
  obtain ⟨e₀, sub, begins⟩ := began
  constructor
  · apply stage_comparedReturn
    · rw [step]
      exact Function.update_self ..
    · intro row
      rw [step, keeps row]
      exact inside
    · exact spared_snoc spared spares
    · exact ⟨e₀, _, joins sub _, begins, compares⟩
  · rw [step]
    rw [inside] at own
    exact ⟨Or.inl inside, own.imp_right Or.inl⟩

theorem storing_advances {o : LaStorageObject}
    (here : s.puts t = .call (.putdoc (asked t).calls.putdoc o.key (rowOf o))
      (insertedReturn (asked t).calls o))
    (inside : owner s.handle = some t) (spared : ∀ e ∈ past, Spares t e)
    (compared : ∃ e₀ e₁, [e₀, e₁].Sublist past ∧ Begins t e₀ ∧ Compares t e₁) :
    Advances asked t past s := by
  obtain ⟨r, h, served, same, done, own⟩ :=
    serve_putdoc s.handle inside (asked t).calls.putdoc o.key (rowOf o)
  have step := sharedStep_call here served
  have spares := spares_inside inside (by rw [step]; exact same)
  obtain ⟨e₀, e₁, sub, begins, compares⟩ := compared
  constructor
  · cases r with
    | false =>
      refine .undoing .error o ?_ (by decide) (spared_snoc spared spares)
      rw [step]
      exact Function.update_self ..
    | true =>
      obtain ⟨ok, stays⟩ := done rfl
      have inserts : Inserts t (event sharedStep s t) := by
        simp only [Inserts, event, step, ok]
        exact ⟨trivial, inside, _, _, rfl⟩
      apply Stage.ending o
      · rw [step]
        exact Function.update_self ..
      · rw [step]
        exact stays
      · exact ⟨e₀, e₁, _, joins sub _, begins, compares, inserts⟩
  · rw [step]
    exact ⟨Or.inl inside, own.imp_right Or.inl⟩

theorem ending_advances {o : LaStorageObject}
    (here : s.puts t = .call (.endtxn (asked t).calls.endtxn) fun _ => .done ⟨.success, o⟩)
    (inside : owner s.handle = some t)
    (inserted : ∃ e₀ e₁ e₂, [e₀, e₁, e₂].Sublist past ∧ Begins t e₀ ∧ Compares t e₁ ∧ Inserts t e₂)
    (fair : Fair asked (event sharedStep s t)) : Advances asked t past s := by
  have ok : (asked t).calls.endtxn = .ok := fair_call here fair
  rw [ok] at here
  obtain ⟨w, opened, served⟩ := serve_endtxn s.handle inside
  have step := sharedStep_call here served
  have commits : Commits t (event sharedStep s t) := by
    simp only [Commits, event, step]
    exact ⟨trivial, w, opened, rfl⟩
  obtain ⟨e₀, e₁, e₂, sub, begins, compares, inserts⟩ := inserted
  constructor
  · refine .returned ⟨.success, o⟩ ?_ ⟨fun _ => ?_, ?_, fun ne => absurd rfl ne⟩
    · rw [step]
      exact Function.update_self ..
    · exact ⟨e₀, e₁, e₂, _, joins sub _, begins, compares, inserts, commits⟩
    · rw [step]
      simp [owner]
  · rw [step]
    exact ⟨Or.inl inside, Or.inr (Or.inl rfl)⟩

theorem undoing_advances {result : LaStorageObjectPutResult} {o : LaStorageObject}
    (here : s.puts t = rollbackReturn (asked t).calls result o)
    (ne : result ≠ .success) (spared : ∀ e ∈ past, Spares t e)
    (fair : Fair asked (event sharedStep s t)) : Advances asked t past s := by
  have holds := fair_call here fair
  obtain ⟨r, h, served, same, idle, keeps⟩ := serve_rollback s.handle (holds.imp_right And.left)
  have step := sharedStep_call here served
  have spares : Spares t (event sharedStep s t) := by
    simp only [Spares, event, step]
    constructor
    · exact fun _ => same
    · intro _ outside
      rw [keeps (holds.resolve_right fun own => outside own.2)]
  constructor
  · refine .returned ⟨result, o⟩ ?_ ⟨fun success => absurd success ne, ?_, fun _ =>
      spared_snoc spared spares⟩
    · rw [step]
      exact Function.update_self ..
    · rw [step, idle]
      simp
  · rw [step]
    exact ⟨holds.elim (fun idle => Or.inr (Or.inl idle)) fun own => Or.inl own.2,
      Or.inr (Or.inl idle)⟩

theorem returned_advances {ret : SqlitePutReturn} (here : s.puts t = .done ret)
    (safe : Transactional t past s ret.result) : Advances asked t past s := by
  have step : sharedStep s t = (none, ⟨s.handle, Function.update s.puts t (.done ret)⟩) := by
    simp [sharedStep, here, advance]
  have spares : Spares t (event sharedStep s t) := by
    simp only [Spares, event, step]
    exact ⟨fun _ => trivial, fun _ _ => trivial⟩
  constructor
  · refine .returned ret ?_ ⟨fun success => ?_, ?_, fun ne =>
      spared_snoc (safe.unchanged ne) spares⟩
    · rw [step]
      exact Function.update_self ..
    · obtain ⟨e₀, e₁, e₂, e₃, sub, all⟩ := safe.isolated success
      exact ⟨e₀, e₁, e₂, e₃, grows sub _, all⟩
    · rw [step]
      exact safe.closed
  · rw [step]
    exact ⟨Or.inr (Or.inr rfl), Or.inr (Or.inr rfl)⟩

/-- The thread's own call takes its put from one stage to the next. -/
theorem sharedStep_stage (stage : Stage asked t past s)
    (fair : Fair asked (event sharedStep s t)) : Advances asked t past s := by
  cases stage with
  | waiting here outside spared => exact waiting_advances here outside spared fair
  | numbering here inside spared began => exact numbering_advances here inside spared began
  | comparing seq here inside spared began => exact comparing_advances here inside spared began
  | storing o here inside spared compared => exact storing_advances here inside spared compared
  | ending o here inside inserted => exact ending_advances here inside inserted fair
  | undoing result o here ne spared => exact undoing_advances here ne spared fair
  | returned ret here safe => exact returned_advances here safe

/-- Another thread that minds its own transaction leaves the put at its stage. -/
theorem Stage.other {u : Nat} (ne : t ≠ u) (stage : Stage asked t past s)
    (minds : Minds u s (sharedStep s u).2) :
    Stage asked t (past ++ [event sharedStep s u]) (sharedStep s u).2 := by
  have kept : (sharedStep s u).2.puts t = s.puts t := Function.update_of_ne ne _ _
  have still : owner s.handle = some t → (sharedStep s u).2.handle = s.handle := by
    intro inside
    have apart : owner s.handle ≠ some u := by simp [inside, ne]
    have busy : owner s.handle ≠ none := by simp [inside]
    exact (minds.1.resolve_left apart).resolve_left busy
  have away : owner s.handle ≠ some t → owner (sharedStep s u).2.handle ≠ some t := by
    intro outside
    rcases minds.2 with own | idle | same
    · simp [own, ne.symm]
    · simp [idle]
    · rwa [same]
  have spares : Spares t (event sharedStep s u) := by
    refine ⟨fun touched => ?_, fun own => absurd own.symm ne⟩
    have inside := touched.resolve_left ne.symm
    exact congrArg Sqlite3.committed (still inside)
  cases stage with
  | waiting here outside spared =>
    exact .waiting (kept.trans here) (away outside) (spared_snoc spared spares)
  | numbering here inside spared began =>
    obtain ⟨e₀, sub, begins⟩ := began
    refine .numbering (kept.trans here) ?_ (spared_snoc spared spares) ⟨e₀, grows sub _, begins⟩
    rw [still inside, inside]
  | comparing seq here inside spared began =>
    obtain ⟨e₀, sub, begins⟩ := began
    refine .comparing seq (kept.trans here) ?_ (spared_snoc spared spares) ⟨e₀, grows sub _, begins⟩
    rw [still inside, inside]
  | storing o here inside spared compared =>
    obtain ⟨e₀, e₁, sub, both⟩ := compared
    refine .storing o (kept.trans here) ?_ (spared_snoc spared spares) ⟨e₀, e₁, grows sub _, both⟩
    rw [still inside, inside]
  | ending o here inside inserted =>
    obtain ⟨e₀, e₁, e₂, sub, all⟩ := inserted
    refine .ending o (kept.trans here) ?_ ⟨e₀, e₁, e₂, grows sub _, all⟩
    rw [still inside, inside]
  | undoing result o here ne' spared =>
    exact .undoing result o (kept.trans here) ne' (spared_snoc spared spares)
  | returned ret here safe =>
    refine .returned ret (kept.trans here) ⟨fun success => ?_, away safe.closed, fun ne' =>
      spared_snoc (safe.unchanged ne') spares⟩
    obtain ⟨e₀, e₁, e₂, e₃, sub, all⟩ := safe.isolated success
    exact ⟨e₀, e₁, e₂, e₃, grows sub _, all⟩

end Step

/-- However the calls of the puts interleave: if every `BEGIN` and `COMMIT` succeeds and every
`ROLLBACK` ends a transaction of its own, each put that has returned was a transaction. -/
theorem puts_transactional {tables : SqliteTables} {asked : Nat → PutCall} {threads : List Nat}
    (fair : ∀ e ∈ events sharedStep (start tables asked) threads, Fair asked e) {t : Nat}
    {ret : SqlitePutReturn}
    (returned : (final sharedStep (start tables asked) threads).puts t = .done ret) :
    Transactional t (events sharedStep (start tables asked) threads)
      (final sharedStep (start tables asked) threads) ret.result := by
  have keeps : ∀ s past u, (∀ t, Stage asked t past s) → Fair asked (event sharedStep s u) →
      ∀ t, Stage asked t (past ++ [event sharedStep s u]) (sharedStep s u).2 := by
    intro s past u stage fair t
    obtain ⟨own, minds⟩ := sharedStep_stage (stage u) fair
    by_cases same : t = u
    · rw [same]
      exact own
    · exact (stage t).other same minds
  have waiting : ∀ t, Stage asked t [] (start tables asked) := by
    intro t
    apply Stage.waiting
    · rfl
    · simp [start, owner]
    · exact nofun
  have stages := recorded (fun s past => ∀ t, Stage asked t past s) (Fair asked) keeps waiting fair
  cases stages t with
  | returned ret' here safe =>
    rw [returned] at here
    cases here
    exact safe
  | waiting here => rw [returned] at here; cases here
  | numbering here => rw [returned] at here; cases here
  | comparing seq here => rw [returned] at here; cases here
  | storing o here => rw [returned] at here; cases here
  | ending o here => rw [returned] at here; cases here
  | undoing result o here => rw [returned] at here; cases here

section SharedHandle

private def document (rev : UInt8) : LaStorageObject :=
  ⟨.ofBytes [97], ⟨0, 0, false, 0, uniformRev rev⟩, fun _ => 0, 0, 0⟩

/-- Two threads put the same new key, each with its own revision. -/
private def twoPuts (t : Nat) : PutCall := ⟨{}, none, document (if t = 0 then 1 else 2)⟩

/-- One after the other: the second put is a conflict. -/
theorem puts_transactional_in_turn :
    Transactional 1 (events sharedStep (start sqliteEmpty twoPuts) [0, 0, 0, 0, 0, 1, 1, 1, 1])
      (final sharedStep (start sqliteEmpty twoPuts) [0, 0, 0, 0, 0, 1, 1, 1, 1]) .conflict := by
  have fair : ∀ e ∈ events sharedStep (start sqliteEmpty twoPuts) [0, 0, 0, 0, 0, 1, 1, 1, 1],
      Fair twoPuts e := by decide +kernel
  have returned :
      (final sharedStep (start sqliteEmpty twoPuts) [0, 0, 0, 0, 0, 1, 1, 1, 1]).puts 1 =
        .done ⟨.conflict, document 2⟩ := rfl
  exact puts_transactional fair returned

/-- The second put starts while the transaction of the first is open: its `BEGIN` fails, and it
compares, inserts and commits in that transaction. -/
theorem put_inside_other_transaction :
    (∃ ret, (final sharedStep (start sqliteEmpty twoPuts) [0, 1, 1, 1, 1, 1]).puts 1 = .done ret ∧
      ret.result = .success) ∧
    ¬Transactional 1 (events sharedStep (start sqliteEmpty twoPuts) [0, 1, 1, 1, 1, 1])
      (final sharedStep (start sqliteEmpty twoPuts) [0, 1, 1, 1, 1, 1]) .success := by
  refine ⟨⟨_, rfl, rfl⟩, fun safe => ?_⟩
  have never : ∀ e ∈ events sharedStep (start sqliteEmpty twoPuts) [0, 1, 1, 1, 1, 1],
      owner e.after.handle ≠ some 1 := by decide +kernel
  obtain ⟨e₀, e₁, e₂, e₃, sub, begins, -⟩ := safe.isolated rfl
  exact never e₀ (sub.subset List.mem_cons_self) begins.2.2

end SharedHandle

end SqliteTransactions
