import Lounge.Host.HostLifetime
import Lounge.Storage.DriverHash

/-!
# Opening a store

`la_storage_open` of `Storage/ObjectStore.c`, with what is asked of the driver, its environment
and the allocator. The driver is looked up under the name of the store, and any code but OK closes
an environment. What is found is up to the hash of the installed drivers, which goes by addresses.
-/

namespace StorageOpen
open FlatMemory LittleEndian Uthash DriverHash
open HostLifetime (LaStorageOpenResult)

/-- What a driver's `open_store` returns. -/
inductive DriverOpenResult where
  | ok | created | notFound | exists | error
  deriving DecidableEq

def DriverOpenResult.toResult : DriverOpenResult → LaStorageOpenResult
  | .ok => .ok
  | .created => .created
  | .notFound => .notFound
  | .exists => .exists
  | .error => .error

/-- A call made while a store is opened: of the driver, or of `malloc`. -/
inductive OpenCall (δ ε ω : Type) where
  | openStore (driver : δ) (env : Option ε) (name : CString) (flags : Int32)
  | closeStore (driver : δ) (store : Option ω)
  | closeEnv (driver : δ) (env : ε)
  | allocate (ok : Bool)

/-- `la_object_store`. -/
structure LaObjectStore (δ ε ω : Type) where
  env : Option ε
  store : Option ω
  driver : δ

/-- What `la_storage_open` returns and calls, and what it leaves in `*store`, NULL included, if
it writes there. -/
structure OpenReturn (δ ε ω : Type) where
  result : LaStorageOpenResult
  calls : List (OpenCall δ ε ω)
  store : Option (Option (LaObjectStore δ ε ω)) := none

section Open
variable {δ ε ω : Type}

/-- `la_storage_open`. `find` is `HASH_FIND_STR` in the installed drivers, and `open_store` what
the drivers do with the call at hand. -/
def laStorageOpen (find : CString → Option δ)
    (openStore : δ → Option ε → CString → Int32 → DriverOpenResult × Option ω)
    (allocated : Bool) (_driver : CString) (env : Option ε) (name : CString) (flags : Int32) :
    OpenReturn δ ε ω :=
  match find name with
  | none => { result := .noDriver, calls := [] }
  | some entry =>
    let (code, objstore) := openStore entry env name flags
    let asked := [.openStore entry env name flags]
    if code ≠ .ok then
      match env with
      | some e => { result := .error, calls := asked ++ [.closeEnv entry e] }
      | none => { result := code.toResult, calls := asked }
    else if !allocated then
      let undone := asked ++ [.allocate false, .closeStore entry objstore]
      match env with
      | some e => { result := .error, calls := undone ++ [.closeEnv entry e], store := some none }
      | none => { result := .error, calls := undone, store := some none }
    else
      { result := .ok
        calls := asked ++ [.allocate true]
        store := some (some ⟨env, objstore, entry⟩) }

/-- The `open_store` calls, with their arguments. -/
def opens : List (OpenCall δ ε ω) → List (δ × Option ε × CString × Int32)
  | [] => []
  | .openStore driver env name flags :: rest => (driver, env, name, flags) :: opens rest
  | _ :: rest => opens rest

/-- A driver is asked for the store: its code comes back, a store is set where it opened one, and
the environment stays open. Where a `malloc` failed only the last of these is asked for. -/
structure OpensWith (openStore : δ → Option ε → CString → Int32 → DriverOpenResult × Option ω)
    (d : δ) (env : Option ε) (name : CString) (flags : Int32) (ret : OpenReturn δ ε ω) : Prop where
  opened : opens ret.calls = [(d, env, name, flags)]
  result : .allocate false ∉ ret.calls → ret.result = (openStore d env name flags).1.toResult
  store : .allocate false ∉ ret.calls →
    ((∃ store, ret.store = some (some store)) ↔
      (openStore d env name flags).1 = .ok ∨ (openStore d env name flags).1 = .created)
  envOpen : ∀ closer e, .closeEnv closer e ∉ ret.calls

/-- What a caller of `la_storage_open` can rely on: a driver that is installed under the name of
the driver is asked, and NO_DRIVER says that there is none. -/
structure OpensRight (installed : CString → δ → Prop)
    (openStore : δ → Option ε → CString → Int32 → DriverOpenResult × Option ω)
    (driver : CString) (env : Option ε) (name : CString) (flags : Int32)
    (ret : OpenReturn δ ε ω) : Prop where
  noDriver : ret.result = .noDriver ↔ ∀ d, ¬installed driver d
  asks : (∃ d, installed driver d) →
    ∃ d, installed driver d ∧ OpensWith openStore d env name flags ret

variable {find : CString → Option δ}
  {openStore : δ → Option ε → CString → Int32 → DriverOpenResult × Option ω}
  {allocated : Bool} {driver : CString} {env : Option ε} {name : CString} {flags : Int32}
  {entry : δ}

theorem toResult_ne_noDriver (code : DriverOpenResult) : code.toResult ≠ .noDriver := by
  cases code <;> decide

/-- The driver that is asked is the one under the name of the store. -/
theorem laStorageOpen_asks (found : find name = some entry)
    (openStore : δ → Option ε → CString → Int32 → DriverOpenResult × Option ω)
    (allocated : Bool) (driver : CString) (env : Option ε) (flags : Int32) :
    opens (laStorageOpen find openStore allocated driver env name flags).calls =
        [(entry, env, name, flags)] ∧
      (laStorageOpen find openStore allocated driver env name flags).result ≠ .noDriver := by
  simp only [laStorageOpen, found]
  by_cases ok : (openStore entry env name flags).1 = .ok
  · cases allocated <;> cases env <;> simp [ok, opens]
  · cases env <;> simp [ok, opens, toResult_ne_noDriver]

/-- An environment is closed by an open that fails, or whose store was not allocated. -/
theorem laStorageOpen_closes (found : find name = some entry) (e : ε)
    (fails : (openStore entry (some e) name flags).1 ≠ .ok ∨ allocated = false) :
    .closeEnv entry e ∈
      (laStorageOpen find openStore allocated driver (some e) name flags).calls := by
  simp only [laStorageOpen, found]
  by_cases ok : (openStore entry (some e) name flags).1 = .ok
  · have unallocated := fails.resolve_left (by simp [ok])
    simp [ok, unallocated]
  · simp [ok]

/-- The return of an open that was allocated its store. -/
theorem laStorageOpen_ok (found : find name = some entry)
    (ok : (openStore entry env name flags).1 = .ok) (driver : CString) :
    laStorageOpen find openStore true driver env name flags =
      { result := .ok
        calls := [.openStore entry env name flags, .allocate true]
        store := some (some ⟨env, (openStore entry env name flags).2, entry⟩) } := by
  simp [laStorageOpen, found, ok]

/-- The return of an open without an environment that the driver did not answer with OK. -/
theorem laStorageOpen_code (found : find name = some entry)
    (other : (openStore entry none name flags).1 ≠ .ok) (allocated : Bool) (driver : CString) :
    laStorageOpen find openStore allocated driver none name flags =
      { result := (openStore entry none name flags).1.toResult
        calls := [.openStore entry none name flags] } := by
  simp [laStorageOpen, found, other]

theorem opensWith_of_ok (found : find name = some entry)
    (ok : (openStore entry env name flags).1 = .ok) :
    OpensWith openStore entry env name flags
      (laStorageOpen find openStore true driver env name flags) := by
  refine ⟨(laStorageOpen_asks found openStore true driver env flags).1, ?_, ?_, ?_⟩ <;>
    rw [laStorageOpen_ok found ok]
  · intro _
    rw [ok]
    rfl
  · simp [ok]
  · simp

/-- Without an environment there is none to close, and any code but OK comes back. -/
theorem opensWith_without_env (found : find name = some entry)
    (other : (openStore entry none name flags).1 ≠ .created) :
    OpensWith openStore entry none name flags
      (laStorageOpen find openStore allocated driver none name flags) := by
  have opened := (laStorageOpen_asks found openStore allocated driver none flags).1
  by_cases ok : (openStore entry none name flags).1 = .ok
  · cases allocated with
    | true => exact opensWith_of_ok found ok
    | false => refine ⟨opened, ?_, ?_, ?_⟩ <;> simp [laStorageOpen, found, ok]
  · refine ⟨opened, ?_, ?_, ?_⟩ <;> rw [laStorageOpen_code found ok]
    · simp
    · simp [ok, other]
    · simp

/-- The driver that is found is asked rightly if the store was opened and allocated, or if there is
no environment, as long as the store was not created. -/
theorem opensWith_iff (found : find name = some entry) :
    OpensWith openStore entry env name flags
        (laStorageOpen find openStore allocated driver env name flags) ↔
      ((openStore entry env name flags).1 = .ok ∧ (allocated = true ∨ env = none)) ∨
        (env = none ∧ (openStore entry env name flags).1 ≠ .created) := by
  constructor
  · intro asks
    cases env with
    | some e =>
      left
      by_contra fails
      refine asks.envOpen entry e (laStorageOpen_closes found e ?_)
      by_cases ok : (openStore entry (some e) name flags).1 = .ok
      · exact Or.inr (by simpa [ok] using fails)
      · exact Or.inl ok
    | none =>
      by_cases ok : (openStore entry none name flags).1 = .ok
      · exact Or.inl ⟨ok, Or.inr rfl⟩
      · refine Or.inr ⟨rfl, fun created => ?_⟩
        have store := asks.store (by simp [laStorageOpen_code found ok])
        rw [laStorageOpen_code found ok] at store
        simp [created] at store
  · rintro (⟨ok, rfl | rfl⟩ | ⟨rfl, other⟩)
    · exact opensWith_of_ok found ok
    · exact opensWith_without_env found (by simp [ok])
    · exact opensWith_without_env found other

/-- What `HASH_FIND_STR` has to make of the name of the store, for an open to be right: nothing
where nothing is installed under the name of the driver, and where something is, a driver installed
under that name, whose store is opened and allocated, or not created and without environment. -/
def FindsRight (installed : CString → δ → Prop) (find : CString → Option δ)
    (openStore : δ → Option ε → CString → Int32 → DriverOpenResult × Option ω)
    (allocated : Bool) (driver : CString) (env : Option ε) (name : CString) (flags : Int32) :
    Prop :=
  match find name with
  | none => ∀ d, ¬installed driver d
  | some d =>
    installed driver d ∧
      (((openStore d env name flags).1 = .ok ∧ (allocated = true ∨ env = none)) ∨
        (env = none ∧ (openStore d env name flags).1 ≠ .created))

/-- Whatever is installed and however it is found. -/
theorem opensRight_find_iff (installed : CString → δ → Prop) :
    OpensRight installed openStore driver env name flags
        (laStorageOpen find openStore allocated driver env name flags) ↔
      FindsRight installed find openStore allocated driver env name flags := by
  cases found : find name with
  | none =>
    have stops : laStorageOpen find openStore allocated driver env name flags =
        { result := .noDriver, calls := [] } := by
      simp [laStorageOpen, found]
    rw [FindsRight, found, stops]
    constructor
    · exact fun right => right.noDriver.mp rfl
    · intro nothing
      refine ⟨⟨fun _ => nothing, fun _ => rfl⟩, ?_⟩
      rintro ⟨d, here⟩
      exact absurd here (nothing d)
  | some entry =>
    obtain ⟨asked, driven⟩ := laStorageOpen_asks found openStore allocated driver env flags
    have asked_iff : OpensWith openStore entry env name flags
        (laStorageOpen find openStore allocated driver env name flags) ↔ _ := opensWith_iff found
    simp only [FindsRight, found]
    rw [← asked_iff]
    constructor
    · intro right
      have some_ : ∃ d, installed driver d := by
        by_contra nothing
        exact driven (right.noDriver.mpr (not_exists.mp nothing))
      obtain ⟨d, here, asks⟩ := right.asks some_
      have same := asked.symm.trans asks.opened
      simp only [List.cons.injEq, Prod.mk.injEq] at same
      obtain rfl := same.1.1
      exact ⟨here, asks⟩
    · rintro ⟨here, asks⟩
      exact ⟨⟨fun none_ => absurd none_ driven, fun nothing => absurd here (nothing entry)⟩,
        fun _ => ⟨entry, here, asks⟩⟩

/-- On a host, whose environment is open, no open returns CREATED, EXISTS or NOT_FOUND. -/
theorem laStorageOpen_host (e : ε) :
    (laStorageOpen find openStore allocated driver (some e) name flags).result ∈
      [LaStorageOpenResult.ok, .error, .noDriver] := by
  cases found : find name with
  | none => simp [laStorageOpen, found]
  | some entry =>
    simp only [laStorageOpen, found]
    by_cases ok : (openStore entry (some e) name flags).1 = .ok
    · cases allocated <;> simp [ok]
    · simp [ok]

end Open

section Lifetime
variable {δ ε ω : Type}

/-- A call as it bears on the life of the environment. -/
def OpenCall.erase : OpenCall δ ε ω → Option HostLifetime.EnvCall
  | .openStore .. => some .openStore
  | .closeStore .. => some .closeStore
  | .closeEnv .. => some (.closeEnv .storageOpen)
  | .allocate _ => none

def LaObjectStore.erase (table : δ → HostLifetime.Driver) (store : LaObjectStore δ ε ω) :
    HostLifetime.LaObjectStore :=
  ⟨store.env.isSome, true, table store.driver⟩

/-- Without the arguments of its calls, this is the open that the life of the environment was
followed through. -/
theorem laStorageOpen_erased (find : CString → Option δ)
    (openStore : δ → Option ε → CString → Int32 → DriverOpenResult × Option ω)
    (table : δ → HostLifetime.Driver) (allocated : Bool) (driver : CString) (env : Option ε)
    (name : CString) (flags : Int32) (calls : HostLifetime.OpenCalls)
    (answered : ∀ d ∈ find name,
      calls.openStore = (openStore d env name flags).1.toResult)
    (malloc : calls.storeAllocated = allocated) :
    let ret := laStorageOpen find openStore allocated driver env name flags
    HostLifetime.laStorageOpen (fun n => (find n).map table) env.isSome name calls =
      (ret.result, ret.calls.filterMap OpenCall.erase,
        ret.store.join.map (LaObjectStore.erase table)) := by
  cases found : find name with
  | none => simp [HostLifetime.laStorageOpen, laStorageOpen, found]
  | some entry =>
    have code := answered entry found
    subst malloc
    simp only [HostLifetime.laStorageOpen, laStorageOpen, found, Option.map_some, code]
    by_cases ok : (openStore entry env name flags).1 = .ok
    · cases calls.storeAllocated <;> cases env <;>
        simp [ok, DriverOpenResult.toResult, OpenCall.erase, LaObjectStore.erase,
          List.filterMap_cons]
    · have other : (openStore entry env name flags).1.toResult ≠ .ok := by
        intro same
        apply ok
        revert same
        cases (openStore entry env name flags).1 <;> decide
      cases env <;> simp [ok, other, OpenCall.erase]

end Lifetime

section Installed
variable {ε ω : Type}

/-- Whatever was installed before: an open is right exactly if the hash has the right driver under
the name of the store. What it has there is a driver installed with the key of that name. -/
theorem opensRight_iff {allocates : Nat → Bool} {drivers drivers' : Hash UInt64}
    {is : List Install} {rets : List Int} (empty : drivers.head = none) (placed : Placed is)
    (ran : installAll allocates drivers is = some (rets, drivers'))
    (openStore : UInt64 → Option ε → CString → Int32 → DriverOpenResult × Option ω)
    (allocated : Bool) (driver : CString) (env : Option ε) (name : CString) (flags : Int32) :
    (OpensRight (Installed is rets) openStore driver env name flags
        (laStorageOpen (findDriver is drivers') openStore allocated driver env name flags) ↔
      FindsRight (Installed is rets) (findDriver is drivers') openStore allocated driver env name
        flags) ∧
    (∀ d, findDriver is drivers' name = some d → ∃ i, KeyedBy is rets name i ∧ i.driver = d) ∧
    (findDriver is drivers' name = none → ∀ i, ¬KeyedBy is rets name i) :=
  ⟨opensRight_find_iff _, findDriver_spec empty placed ran name⟩

/-- The life of an environment over the installed drivers. -/
theorem laStorageOpen_installed (is : List Install) (drivers : Hash UInt64)
    (openStore : UInt64 → Option ε → CString → Int32 → DriverOpenResult × Option ω)
    (table : UInt64 → HostLifetime.Driver) (allocated : Bool) (driver : CString) (env : Option ε)
    (name : CString) (flags : Int32) :
    let ret := laStorageOpen (findDriver is drivers) openStore allocated driver env name flags
    ∃ calls : HostLifetime.OpenCalls,
      HostLifetime.laStorageOpen (fun n => (findDriver is drivers n).map table) env.isSome name
          calls =
        (ret.result, ret.calls.filterMap OpenCall.erase,
          ret.store.join.map (LaObjectStore.erase table)) := by
  intro ret
  refine ⟨{ openStore := (findDriver is drivers name).elim .ok fun d =>
      (openStore d env name flags).1.toResult, storeAllocated := allocated }, ?_⟩
  refine laStorageOpen_erased _ openStore table allocated driver env name flags _ ?_ rfl
  intro d here
  simp only [Option.mem_def] at here
  simp only [here, Option.elim_some]

end Installed

section Samples

private def driverName : CString := CString.ofBytes [66, 68, 66]

private def otherName : CString := CString.ofBytes [116]

/-- The string `BDB` of this program is at an address that reads `BDB`. -/
private def bdbAtBdb : Install := ⟨driverName, 0x424442, 0x500000, some 0x600000, fun _ => 0⟩

private theorem placed_bdbAtBdb : Placed [bdbAtBdb] := ⟨by decide, by decide, by decide⟩

private def opensAll : UInt64 → Option Unit → CString → Int32 → DriverOpenResult × Option Unit :=
  fun _ _ _ _ => (.ok, some ())

/-- A database "BDB" in an environment of that driver is opened. -/
theorem same_name_opened :
    ∃ drivers, installAll (fun _ => true) noDrivers [bdbAtBdb] = some ([0], drivers) ∧
      OpensRight (Installed [bdbAtBdb] [0]) opensAll driverName (some ()) driverName 0
        (laStorageOpen (findDriver [bdbAtBdb] drivers) opensAll true driverName (some ())
          driverName 0) := by
  obtain ⟨drivers, ran⟩ := install_first (i := bdbAtBdb) rfl
  obtain ⟨right, there, missing⟩ :=
    opensRight_iff rfl placed_bdbAtBdb ran opensAll true driverName (some ()) driverName 0
  refine ⟨drivers, ran, right.mpr ?_⟩
  cases found : findDriver [bdbAtBdb] drivers driverName with
  | none =>
    exact absurd ⟨List.mem_singleton_self _, by decide, by decide, by decide⟩
      (missing found bdbAtBdb)
  | some d =>
    obtain ⟨i, keyed, rfl⟩ := there d found
    obtain ⟨rfl, -⟩ := Prod.mk.inj (List.mem_singleton.mp keyed.called)
    simp only [FindsRight, found]
    exact ⟨⟨bdbAtBdb, keyed.called, rfl, rfl⟩, Or.inl ⟨rfl, Or.inl trivial⟩⟩

/-- A database "t" is not, although the driver is installed. -/
theorem other_name_not_opened :
    ∃ drivers, installAll (fun _ => true) noDrivers [bdbAtBdb] = some ([0], drivers) ∧
      Installed [bdbAtBdb] [0] driverName 0x500000 ∧
      ¬OpensRight (Installed [bdbAtBdb] [0]) opensAll driverName (some ()) otherName 0
        (laStorageOpen (findDriver [bdbAtBdb] drivers) opensAll true driverName (some ())
          otherName 0) := by
  obtain ⟨drivers, ran⟩ := install_first (i := bdbAtBdb) rfl
  have installed : Installed [bdbAtBdb] [0] driverName 0x500000 :=
    ⟨bdbAtBdb, List.mem_singleton_self _, rfl, rfl⟩
  refine ⟨drivers, ran, installed, fun right => ?_⟩
  have finds := (opensRight_find_iff _).mp right
  cases found : findDriver [bdbAtBdb] drivers otherName with
  | none =>
    rw [FindsRight, found] at finds
    exact finds _ installed
  | some d =>
    obtain ⟨i, keyed, -⟩ := (findDriver_spec rfl placed_bdbAtBdb ran otherName).1 d found
    obtain ⟨rfl, -⟩ := Prod.mk.inj (List.mem_singleton.mp keyed.called)
    exact absurd keyed.length (by decide)

end Samples

end StorageOpen
