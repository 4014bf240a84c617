import Lounge.Lib.CString
import Mathlib.Tactic.Common

/-!
# The life of a host's environment

`la_host_open` and `la_host_close` of `api/api.c`, and what opening, closing and
deleting a database does below them in `Storage/ObjectStore.c`. The object store
that `la_storage_open` makes keeps the host's environment pointer, and
`la_storage_close` closes the environment through it.
-/

namespace HostLifetime

inductive LaStorageOpenResult where
  | ok | created | notFound | exists | error | noDriver
  deriving DecidableEq

/-- The part of a driver table that depends on the driver: whether `delete_store` is set. -/
structure Driver where
  deleteStore : Bool
  deriving DecidableEq

/-- What `HASH_FIND_STR` makes of a name in the hash of the installed drivers. -/
abbrev Drivers := CString → Option Driver

/-- Who closed the environment. -/
inductive Closer where
  | storageOpen | storageClose | hostClose
  deriving DecidableEq

/-- What a function asks of the environment or of a store in it. -/
inductive EnvCall where
  | openStore | closeStore | deleteStore | useStore
  | closeEnv (closer : Closer)
  deriving DecidableEq

/-- `la_object_store`: whether its two pointers are set, and its driver. -/
structure LaObjectStore where
  env : Bool
  store : Bool
  driver : Driver
  deriving DecidableEq

/-- The results of the allocations and of the driver's `open_store` in one `la_db_open`. -/
structure OpenCalls where
  dbAllocated : Bool := true
  openStore : LaStorageOpenResult := .ok
  storeAllocated : Bool := true
  deriving DecidableEq

/-- `la_storage_open`. The driver is looked up under the name of the database. -/
def laStorageOpen (drivers : Drivers) (env : Bool) (name : CString) (calls : OpenCalls) :
    LaStorageOpenResult × List EnvCall × Option LaObjectStore :=
  match drivers name with
  | none => (.noDriver, [], none)
  | some driver =>
    if calls.openStore ≠ .ok then
      if env then (.error, [.openStore, .closeEnv .storageOpen], none)
      else (calls.openStore, [.openStore], none)
    else if !calls.storeAllocated then
      if env then (.error, [.openStore, .closeStore, .closeEnv .storageOpen], none)
      else (.error, [.openStore, .closeStore], none)
    else (.ok, [.openStore], some ⟨env, true, driver⟩)

/-- `la_storage_close`. -/
def laStorageClose (store : LaObjectStore) : List EnvCall :=
  (if store.store then [.closeStore] else []) ++
    if store.env then [.closeEnv .storageClose] else []

/-- `la_storage_delete_store`, where `deleted` tells whether the driver returned 0. A
driver without `delete_store` is called through a null pointer. -/
def laStorageDeleteStore (store : LaObjectStore) (deleted : Bool) : Option (List EnvCall) :=
  if store.driver.deleteStore then
    some (.deleteStore :: if deleted then laStorageClose store else [])
  else none

/-- `la_db`, of which only the store changes. -/
structure LaDb where
  store : Option LaObjectStore
  deriving DecidableEq

/-- `la_db_open` on a host, whose environment is never NULL. -/
def laDbOpen (drivers : Drivers) (name : CString) (calls : OpenCalls) :
    LaStorageOpenResult × List EnvCall × Option LaDb :=
  if !calls.dbAllocated then (.error, [], none)
  else
    match laStorageOpen drivers true name calls with
    | (result, asked, store) =>
      if result ≠ .ok ∧ result ≠ .created then (result, asked, none)
      else (result, asked, some ⟨store⟩)

/-- `la_db_close`. -/
def laDbClose (db : LaDb) : List EnvCall :=
  match db.store with
  | some store => laStorageClose store
  | none => []

/-- `la_db_delete_db`. -/
def laDbDeleteDb (db : LaDb) (deleted : Bool) : Option (List EnvCall × LaDb) :=
  match db.store with
  | none => none
  | some store => (laStorageDeleteStore store deleted).map fun asked => (asked, ⟨none⟩)

/-- A call of the program that owns the host. Handles are numbered as they are
handed out. -/
inductive Request where
  | openDb (name : CString) (calls : OpenCalls)
  | useDb (handle : Nat)
  | closeDb (handle : Nat)
  | deleteDb (handle : Nat) (deleted : Bool)
  deriving DecidableEq

/-- The handles handed out so far, `none` where closed. -/
abbrev Handles := List (Option LaDb)

/-- The open handle of a number. -/
def Handles.get (handles : Handles) (i : Nat) : Option LaDb := (handles[i]?).join

/-- One call; `none` where the program crashes or uses a handle it has closed. -/
def perform (drivers : Drivers) (handles : Handles) : Request → Option (List EnvCall × Handles)
  | .openDb name calls =>
    match laDbOpen drivers name calls with
    | (_, asked, some db) => some (asked, handles ++ [some db])
    | (_, asked, none) => some (asked, handles)
  | .useDb i =>
    match (handles.get i).bind LaDb.store with
    | some _ => some ([.useStore], handles)
    | none => none
  | .closeDb i => (handles.get i).map fun db => (laDbClose db, handles.set i none)
  | .deleteDb i deleted =>
    (handles.get i).bind fun db =>
      (laDbDeleteDb db deleted).map fun out => (out.1, handles.set i (some out.2))

/-- What a sequence of calls asks of the environment. -/
def performAll (drivers : Drivers) : Handles → List Request → Option (List EnvCall)
  | _, [] => some []
  | handles, r :: rest =>
    (perform drivers handles r).bind fun out =>
      (performAll drivers out.2 rest).map fun asked => out.1 ++ asked

/-- A program from `la_host_open` to `la_host_close`. The environment is only opened
when the host's driver is installed. -/
def hostRun (drivers : Drivers) (driver : CString) (requests : List Request) :
    Option (List EnvCall) :=
  (drivers driver).bind fun _ =>
    (performAll drivers [] requests).map fun asked => asked ++ [.closeEnv .hostClose]

/-- The closers of the environment, in order. -/
def closers : List EnvCall → List Closer
  | [] => []
  | .closeEnv closer :: rest => closer :: closers rest
  | _ :: rest => closers rest

/-- The environment is closed once, by `la_host_close`, and not touched afterwards. -/
def ClosedOnce (asked : List EnvCall) : Prop :=
  closers asked = [.hostClose] ∧
    ∀ before closer after, asked = before ++ .closeEnv closer :: after → after = []

/-- A call that closes the environment under the host: an open that fails once the
driver was asked, or the close or deletion of a database whose store is open. -/
def closesEnv (drivers : Drivers) (handles : Handles) : Request → Bool
  | .openDb name calls =>
    calls.dbAllocated && (drivers name).isSome && (calls.openStore ≠ .ok || !calls.storeAllocated)
  | .useDb _ => false
  | .closeDb i => ((handles.get i).bind LaDb.store).isSome
  | .deleteDb i deleted => deleted && ((handles.get i).bind LaDb.store).isSome

/-- The calls of a program, each with the handles before it. -/
def requestsAt (drivers : Drivers) : Handles → List Request → List (Handles × Request)
  | _, [] => []
  | handles, r :: rest =>
    (handles, r) :: match perform drivers handles r with
      | some out => requestsAt drivers out.2 rest
      | none => []

/-- Every store of an open handle keeps the environment. -/
def KeepsEnv (handles : Handles) : Prop :=
  ∀ i db store, handles.get i = some db → db.store = some store → store.env = true

@[simp] theorem closers_append (xs ys : List EnvCall) :
    closers (xs ++ ys) = closers xs ++ closers ys := by
  induction xs with
  | nil => rfl
  | cons call rest ih => cases call <;> simp [closers, ih]

theorem keepsEnv_set {handles : Handles} (keeps : KeepsEnv handles) (i : Nat) {slot : Option LaDb}
    (new : ∀ db store, slot = some db → db.store = some store → store.env = true) :
    KeepsEnv (handles.set i slot) := by
  intro j db store hdb hstore
  by_cases here : i = j
  · subst here
    by_cases inside : i < handles.length
    · exact new db store (by simpa [Handles.get, inside] using hdb) hstore
    · simp [Handles.get, inside] at hdb
  · exact keeps j db store (by simpa [Handles.get, here] using hdb) hstore

theorem keepsEnv_append {handles : Handles} (keeps : KeepsEnv handles) {db : LaDb}
    (new : ∀ store, db.store = some store → store.env = true) :
    KeepsEnv (handles ++ [some db]) := by
  intro j other store hdb hstore
  by_cases old : j < handles.length
  · refine keeps j other store ?_ hstore
    simpa [Handles.get, List.getElem?_append_left old] using hdb
  · by_cases last : j = handles.length
    · subst last
      have same : db = other := by simpa [Handles.get] using hdb
      exact new store (same ▸ hstore)
    · have beyond : (handles ++ [some db])[j]? = none :=
        List.getElem?_eq_none (by simp; omega)
      simp [Handles.get, beyond] at hdb

theorem laStorageClose_closers (store : LaObjectStore) :
    closers (laStorageClose store) = if store.env then [.storageClose] else [] := by
  obtain ⟨env, open', driver⟩ := store
  cases env <;> cases open' <;> rfl

/-- Opening closes the environment when it fails behind the driver's back, and an
opened store keeps the environment. -/
theorem laDbOpen_closers (drivers : Drivers) (handles : Handles) (name : CString)
    (calls : OpenCalls) :
    (closers (laDbOpen drivers name calls).2.1 = [] ↔
      closesEnv drivers handles (.openDb name calls) = false) ∧
    ∀ db store, (laDbOpen drivers name calls).2.2 = some db → db.store = some store →
      store.env = true := by
  obtain ⟨dbAllocated, openStore, storeAllocated⟩ := calls
  unfold laDbOpen laStorageOpen closesEnv
  cases dbAllocated with
  | false => simp [closers]
  | true =>
    cases found : drivers name with
    | none => simp [closers, found]
    | some driver =>
      by_cases ok : openStore = .ok
      · subst ok
        cases storeAllocated with
        | false => simp [closers, found]
        | true =>
          refine ⟨by simp [closers], fun db store hdb hstore => ?_⟩
          cases hdb
          cases hstore
          rfl
      · simp [ok, closers, found]

theorem perform_closers {drivers : Drivers} {handles : Handles} {r : Request}
    {out : List EnvCall × Handles} (keeps : KeepsEnv handles)
    (h : perform drivers handles r = some out) :
    KeepsEnv out.2 ∧ (closers out.1 = [] ↔ closesEnv drivers handles r = false) := by
  cases r with
  | openDb name calls =>
    obtain ⟨iff, env⟩ := laDbOpen_closers drivers handles name calls
    rcases opened : laDbOpen drivers name calls with ⟨result, asked, db⟩
    rw [opened] at iff env
    simp only [perform, opened] at h
    cases db with
    | none =>
      cases h
      exact ⟨keeps, iff⟩
    | some db =>
      cases h
      exact ⟨keepsEnv_append keeps fun store hs => env db store rfl hs, iff⟩
  | useDb i =>
    cases open' : (handles.get i).bind LaDb.store with
    | none => simp [perform, open'] at h
    | some store =>
      simp only [perform, open', Option.some.injEq] at h
      subst h
      exact ⟨keeps, by simp [closers, closesEnv]⟩
  | closeDb i =>
    obtain ⟨db, hdb, rfl⟩ := Option.map_eq_some_iff.mp h
    refine ⟨keepsEnv_set keeps i (by simp), ?_⟩
    cases hs : db.store with
    | none => simp [laDbClose, hs, closers, closesEnv, hdb]
    | some store =>
      have env := keeps i db store hdb hs
      simp [laDbClose, hs, laStorageClose_closers, env, closesEnv, hdb]
  | deleteDb i deleted =>
    obtain ⟨db, hdb, rest⟩ := Option.bind_eq_some_iff.mp h
    obtain ⟨gone, hgone, rfl⟩ := Option.map_eq_some_iff.mp rest
    cases hs : db.store with
    | none => simp [laDbDeleteDb, hs] at hgone
    | some store =>
      have env := keeps i db store hdb hs
      simp only [laDbDeleteDb, hs, Option.map_eq_some_iff] at hgone
      obtain ⟨asked, hasked, rfl⟩ := hgone
      refine ⟨keepsEnv_set keeps i (by rintro _ _ ⟨⟩ ⟨⟩), ?_⟩
      unfold laStorageDeleteStore at hasked
      split at hasked
      · cases hasked
        cases deleted <;> simp [closers, laStorageClose_closers, env, closesEnv, hdb, hs]
      · cases hasked

theorem performAll_closers {drivers : Drivers} {handles : Handles} {requests : List Request}
    {asked : List EnvCall} (keeps : KeepsEnv handles)
    (h : performAll drivers handles requests = some asked) :
    closers asked = [] ↔
      ∀ p ∈ requestsAt drivers handles requests, closesEnv drivers p.1 p.2 = false := by
  induction requests generalizing handles asked with
  | nil =>
    cases h
    simp [closers, requestsAt]
  | cons r rest ih =>
    obtain ⟨out, hout, next⟩ := Option.bind_eq_some_iff.mp h
    obtain ⟨tail, htail, rfl⟩ := Option.map_eq_some_iff.mp next
    obtain ⟨keeps', here⟩ := perform_closers keeps hout
    simp [requestsAt, hout, here, ih keeps' htail]

/-- The environment is closed once, by `la_host_close`, in exactly the programs in
which no database call closes it. -/
theorem hostRun_closedOnce_iff {drivers : Drivers} {driver : CString} {requests : List Request}
    {asked : List EnvCall} (run : hostRun drivers driver requests = some asked) :
    ClosedOnce asked ↔
      ∀ p ∈ requestsAt drivers [] requests, closesEnv drivers p.1 p.2 = false := by
  obtain ⟨entry, -, rest⟩ := Option.bind_eq_some_iff.mp run
  obtain ⟨before, hbefore, rfl⟩ := Option.map_eq_some_iff.mp rest
  have start : KeepsEnv [] := fun i db store hdb => by simp [Handles.get] at hdb
  rw [← performAll_closers start hbefore]
  constructor
  · rintro ⟨once, -⟩
    simpa [closers] using once
  · intro none
    refine ⟨by simp [none, closers], fun pre closer post split => ?_⟩
    by_cases last : post = []
    · exact last
    · exfalso
      obtain ⟨post', final, rfl⟩ := (List.eq_nil_or_concat post).resolve_left last
      have inside : before = pre ++ .closeEnv closer :: post' := by
        have ends : before ++ [.closeEnv .hostClose] =
            (pre ++ .closeEnv closer :: post') ++ [final] := by simpa using split
        exact (List.append_inj' ends rfl).1
      simp [inside, closers] at none

section Programs

private def bdb : CString := .ofBytes [66, 68, 66]

/-- A program into which one driver without `delete_store` is linked. -/
private def oneDriver : Drivers := fun name => if name = bdb then some ⟨false⟩ else none

/-- An open that finds no driver, and a database that stays open. -/
private def stillOpen : List Request :=
  [.openDb (.ofBytes [116]) {}, .openDb bdb {}, .useDb 0]

private def opensAndCloses : List Request := [.openDb bdb {}, .useDb 0, .closeDb 0]

theorem hostRun_still_open :
    hostRun oneDriver bdb stillOpen = some [.openStore, .useStore, .closeEnv .hostClose] ∧
      ClosedOnce [.openStore, .useStore, .closeEnv .hostClose] := by
  have run : hostRun oneDriver bdb stillOpen =
      some [.openStore, .useStore, .closeEnv .hostClose] := by decide
  exact ⟨run, (hostRun_closedOnce_iff run).mpr (by decide)⟩

/-- Open, use, close and leave: the environment is closed twice. -/
theorem closed_database_closes_twice :
    ∃ asked, hostRun oneDriver bdb opensAndCloses = some asked ∧
      closers asked = [.storageClose, .hostClose] ∧ ¬ClosedOnce asked :=
  ⟨[.openStore, .useStore, .closeStore, .closeEnv .storageClose, .closeEnv .hostClose],
    by decide, by decide, fun once => absurd once.1 (by decide)⟩

end Programs

end HostLifetime
