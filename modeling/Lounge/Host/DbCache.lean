import Lounge.Host.HostLifetime
import Lounge.Lib.Runs
import Lounge.Storage.DriverHash

/-!
# The database cache

`ngx_http_loungeact/db_cache.c`. The part of `db_cache_open` under the mutex is one
step, what it does after the unlock another one, so other requests come between.
`db_cache_close` computes the entry from the value of the handle, not from the
address of the entry's field: what it takes for the entry's count is the low word
of the handle's own store pointer (pointers of 8 bytes, little-endian). Its hash goes by the
addresses of the names, as the one of the drivers does.
-/

namespace DbCache
open HostLifetime FlatMemory LittleEndian Uthash DriverHash

/-- A `db_cache_entry_t` and the `la_db_t` it points to; `cache_decref` frees both. `address` is
where `strdup` put the name. -/
structure Slot where
  name : CString
  address : UInt64
  refcount : BitVec 32
  objectStore : LaObjectStore
  /-- The store pointer that `la_db_open` set. -/
  opened : BitVec 64
  /-- The store pointer now. -/
  store : BitVec 64
  freed : Bool := false
  /-- `la_db_delete_db` was called on the handle. -/
  deleted : Bool := false
  deriving DecidableEq

structure OpenFlags where
  create : Bool
  excl : Bool
  deriving DecidableEq

/-- A `db_cache_open` between its unlock and its return. -/
inductive Pending where
  | inserted (slot : Nat) (result : LaStorageOpenResult)
  | found (slot : Nat) (flags : OpenFlags)
  deriving DecidableEq

def Pending.slot : Pending → Nat
  | .inserted i _ => i
  | .found i _ => i

/-- `db_cache_t`, every entry made so far, the opens under way and who holds what.
`head` is the hash in insertion order. -/
structure CacheState where
  maxsize : Nat
  slots : List Slot := []
  head : List Nat := []
  pending : List Pending := []
  holds : List Nat := []
  deriving DecidableEq

/-- What the allocator and the storage layer do in one `db_cache_open`. `garbage` is
what `malloc` leaves in the count of the entry, and `copy` what `strdup` returns. -/
structure CacheCalls where
  entryAllocated : Bool := true
  garbage : BitVec 32 := 0
  copy : Option UInt64 := some 0x600000
  db : OpenCalls := {}
  store : {p : BitVec 64 // p ≠ 0} := ⟨16, by decide⟩
  deriving DecidableEq

inductive CacheRequest where
  | lookup (name : CString) (flags : OpenFlags) (calls : CacheCalls)
  | finish (thread : Nat)
  | close (slot : Nat)
  | delete (slot : Nat) (deleted : Bool)
  deriving DecidableEq

inductive CacheReply where
  | waiting
  | handedOut (slot : Nat) (result : LaStorageOpenResult)
  | returned (result : LaStorageOpenResult)
  | done
  deriving DecidableEq

/-- `cache_decref`. A store pointer that is neither NULL nor the one opened sends
`la_db_close` into foreign memory. -/
def cacheDecref (slots : List Slot) (i : Nat) : Option (List Slot) :=
  match slots[i]? with
  | none => none
  | some slot =>
    if slot.freed then none
    else
      let refcount := slot.refcount - 1
      if refcount = 0 then
        if slot.store ≠ 0 ∧ slot.store ≠ slot.opened then none
        else some (slots.set i { slot with refcount, freed := true })
      else some (slots.set i { slot with refcount })

/-- The key of an entry is that of a name: the entry's own is as long, and its address begins
with the bytes of this one. -/
def Slot.keyedBy (slot : Slot) (name : CString) : Bool :=
  decide (name.strlen < 8 ∧ slot.name.strlen = name.strlen ∧
    name.bytes = (bytesLE 8 slot.address.toNat).take name.strlen)

/-- `HASH_FIND_STR` in the cache. -/
abbrev Find := CacheState → CString → Option Nat

/-- It finds an entry of the hash that has the key of the name, if there is one. -/
structure FindsKey (s : CacheState) (find : CString → Option Nat) : Prop where
  found : ∀ name i, find name = some i →
    i ∈ s.head ∧ ∃ slot, s.slots[i]? = some slot ∧ slot.keyedBy name = true
  missed : ∀ name, find name = none → ∀ i ∈ s.head, ∀ slot, s.slots[i]? = some slot →
    slot.keyedBy name = false

/-- The oldest one. -/
def findOldest : Find := fun s name =>
  s.head.find? fun i => (s.slots[i]?).any fun slot => slot.keyedBy name

theorem findOldest_findsKey (s : CacheState) : FindsKey s (findOldest s) := by
  constructor
  · intro name i found
    have keyed := List.find?_some found
    exact ⟨List.mem_of_find?_eq_some found, (Option.any_eq_true _ _).mp keyed⟩
  · intro name missed i cached slot here
    have other := List.find?_eq_none.mp missed i cached
    simpa [here] using other

section Table
variable {s : CacheState} {table : Hash UInt64} {block : Nat → UInt64} {behind : Nat → Memory}

/-- The key of `HASH_ADD_STR`: as many bytes of the entry as its name has, from the pointer on.
`behind` is what follows the pointer. -/
def Slot.key (slot : Slot) (behind : Memory) : List UInt8 :=
  read (load (bytesLE 8 slot.address.toNat) behind) 0 slot.name.strlen

theorem keyedBy_iff {slot : Slot} (address : slot.address.toNat < 2 ^ 56) (behind : Memory)
    (name : CString) : slot.keyedBy name = true ↔ name.bytes = slot.key behind := by
  have pointer : read (load (bytesLE 8 slot.address.toNat) behind) 0 8 =
      bytesLE 8 slot.address.toNat := by
    rw [read_load (by simp), List.drop_zero, List.take_of_length_le (by simp)]
  rw [Slot.key, key_iff pointer address, Slot.keyedBy, decide_eq_true_iff]

/-- A table of the cached entries, each in a block of its own, finds like this. -/
theorem hash_findsKey (own : ∀ i ∈ s.head, ∀ j ∈ s.head, block i = block j → i = j)
    (address : ∀ i ∈ s.head, ∀ slot, s.slots[i]? = some slot → slot.address.toNat < 2 ^ 56)
    (represents : Represents table (s.head.filterMap fun i =>
      (s.slots[i]?).map fun slot => (block i, slot.key (behind i)))) :
    FindsKey s fun name => (hashFindStr table name).join.bind fun e =>
      s.head.find? fun i => block i == e := by
  have at_ : ∀ {name e}, (e, name) ∈ (s.head.filterMap fun i =>
      (s.slots[i]?).map fun slot => (block i, slot.key (behind i))) ↔
        ∃ i ∈ s.head, ∃ slot, s.slots[i]? = some slot ∧ block i = e ∧
          slot.key (behind i) = name := by
    intro name e
    simp [List.mem_filterMap]
  constructor
  · intro name i here
    obtain ⟨out, found, there, -⟩ := represents.answers.find name.bytes
    obtain ⟨e, same, first⟩ := Option.bind_eq_some_iff.mp here
    have lookup : hashFindStr table name = some out := found
    rw [lookup, Option.join_some] at same
    obtain ⟨j, cached, slot, at_j, rfl, key⟩ := at_.mp (there e same)
    have cached_i := List.mem_of_find?_eq_some first
    have same_block : block i = block j := by simpa using List.find?_some first
    obtain rfl := own i cached_i j cached same_block
    exact ⟨cached, slot, at_j, (keyedBy_iff (address i cached slot at_j) _ name).mpr key.symm⟩
  · intro name nothing i cached slot here
    obtain ⟨out, found, there, missing⟩ := represents.answers.find name.bytes
    have lookup : hashFindStr table name = some out := found
    cases out with
    | none =>
      have absent := missing rfl (block i)
      by_contra keyed
      have same : slot.keyedBy name = true := by simpa using keyed
      have key := (keyedBy_iff (address i cached slot here) (behind i) name).mp same
      exact absent (at_.mpr ⟨i, cached, slot, here, rfl, key.symm⟩)
    | some e =>
      obtain ⟨j, cached_j, -, -, block_j, -⟩ := at_.mp (there e rfl)
      rw [lookup, Option.join_some, Option.bind_some] at nothing
      have other := List.find?_eq_none.mp nothing j cached_j
      simp [block_j] at other

end Table

/-- A new entry, added and counted once. -/
def insertEntry (s : CacheState) (name : CString) (address : UInt64) (calls : CacheCalls)
    (objectStore : LaObjectStore) (result : LaStorageOpenResult) : CacheState :=
  { s with
    slots := s.slots ++ [{ name, address, refcount := calls.garbage + 1, objectStore,
                           opened := calls.store, store := calls.store }]
    head := s.head ++ [s.slots.length]
    pending := s.pending ++ [.inserted s.slots.length result] }

/-- The oldest entry goes when there are too many. -/
def evict (s : CacheState) : Option CacheState :=
  match s.head with
  | [] => some s
  | oldest :: rest =>
    if s.maxsize < s.head.length then
      (cacheDecref s.slots oldest).map fun slots => { s with slots, head := rest }
    else some s

/-- `db_cache_open` up to its unlock. -/
def lookup (find : Find) (drivers : Drivers) (s : CacheState) (name : CString) (flags : OpenFlags)
    (calls : CacheCalls) : Option (CacheReply × CacheState) :=
  match find s name with
  | some i =>
    some (.waiting, { s with
      head := s.head.erase i ++ [i], pending := s.pending ++ [.found i flags] })
  | none =>
    if !calls.entryAllocated then some (.returned .error, s)
    else
      match laDbOpen drivers name calls.db with
      | (result, _, some ⟨some objectStore⟩) =>
        match calls.copy with
        | none => none
        | some address =>
          (evict (insertEntry s name address calls objectStore result)).map fun s => (.waiting, s)
      | (result, _, _) => some (.returned result, s)

/-- `db_cache_open` after its unlock: the entry is counted and read without the mutex. -/
def finish (s : CacheState) (thread : Nat) : Option (CacheReply × CacheState) :=
  match s.pending[thread]? with
  | none => none
  | some open' =>
    match s.slots[open'.slot]? with
    | none => none
    | some slot =>
      let rest := { s with pending := s.pending.eraseIdx thread }
      match open' with
      | .inserted i result =>
        if slot.freed then none
        else some (.handedOut i result, { rest with holds := i :: s.holds })
      | .found i flags =>
        if flags.create && flags.excl then some (.returned .exists, rest)
        else if slot.freed then none
        else some (.handedOut i .ok, { rest with
          slots := s.slots.set i { slot with refcount := slot.refcount + 1 }
          holds := i :: s.holds })

/-- `db_cache_close` by a holder: the low word of the store pointer is decremented, and
when it becomes zero the host is closed as if it were the database. -/
def cacheClose (s : CacheState) (i : Nat) : Option (CacheReply × CacheState) :=
  if i ∈ s.holds then
    match s.slots[i]? with
    | none => none
    | some slot =>
      let low : BitVec 32 := slot.store.extractLsb' 0 32 - 1
      if slot.freed ∨ low = 0 then none
      else some (.done, { s with
        slots := s.slots.set i { slot with store := slot.store.extractLsb' 32 32 ++ low }
        holds := s.holds.erase i })
  else none

/-- `la_db_delete_db` by a holder. -/
def cacheDelete (s : CacheState) (i : Nat) (deleted : Bool) : Option (CacheReply × CacheState) :=
  if i ∈ s.holds then
    match s.slots[i]? with
    | none => none
    | some slot =>
      if slot.freed ∨ slot.store = 0 ∨ slot.store ≠ slot.opened then none
      else (laStorageDeleteStore slot.objectStore deleted).map fun _ =>
        (.done, { s with slots := s.slots.set i { slot with store := 0, deleted := true } })
  else none

/-- One step of one request; `none` where the program crashes, and for a close or a
deletion by someone who does not hold the handle. -/
def serve (find : Find) (drivers : Drivers) (s : CacheState) :
    CacheRequest → Option (CacheReply × CacheState)
  | .lookup name flags calls => lookup find drivers s name flags calls
  | .finish thread => finish s thread
  | .close i => cacheClose s i
  | .delete i deleted => cacheDelete s i deleted

/-- The step of a run; nothing happens after a crash. -/
def step (find : Find) (drivers : Drivers) (s : CacheState) (r : CacheRequest) :
    Option CacheReply × CacheState :=
  match serve find drivers s r with
  | some (reply, s') => (some reply, s')
  | none => (none, s)

instance decidableExistsSome {α : Type} (o : Option α) (p : α → Prop) [DecidablePred p] :
    Decidable (∃ a, o = some a ∧ p a) :=
  match o with
  | none => isFalse (by simp)
  | some a => decidable_of_iff (p a) (by simp)

/-- The handle of a slot is open: `la_db_close` was not called and its store is set. -/
def IsOpen (s : CacheState) (i : Nat) : Prop :=
  ∃ slot, s.slots[i]? = some slot ∧ slot.freed = false ∧ slot.store ≠ 0

instance (s : CacheState) (i : Nat) : Decidable (IsOpen s i) :=
  inferInstanceAs
    (Decidable (∃ slot, s.slots[i]? = some slot ∧ slot.freed = false ∧ slot.store ≠ 0))

/-- Every handle that someone holds is open or its database was deleted. -/
def HoldsOpen (s : CacheState) : Prop :=
  ∀ i ∈ s.holds, IsOpen s i ∨ ∃ slot, s.slots[i]? = some slot ∧ slot.deleted = true

instance (s : CacheState) : Decidable (HoldsOpen s) :=
  inferInstanceAs (Decidable (∀ i ∈ s.holds,
    IsOpen s i ∨ ∃ slot, s.slots[i]? = some slot ∧ slot.deleted = true))

/-- The entry that a `db_cache_open` evicts. -/
def evicted (find : Find) (drivers : Drivers) (s : CacheState) (name : CString)
    (calls : CacheCalls) : Option Nat :=
  if find s name = none ∧ calls.entryAllocated ∧ (laDbOpen drivers name calls.db).2.2.isSome ∧
      s.maxsize < s.head.length + 1 then
    (s.head ++ [s.slots.length]).head?
  else none

/-- An eviction may take an entry's last count only if nobody holds or is about to get
its handle. -/
def evictable (s : CacheState) (calls : CacheCalls) (i : Nat) : Bool :=
  match s.slots[i]? with
  | none => calls.garbage + 1 ≠ 1
  | some slot =>
    slot.refcount ≠ 1 ||
      (s.pending.all fun p => p.slot ≠ i) && (slot.deleted || !s.holds.contains i)

/-- The handle that an open is about to return was not deleted meanwhile. -/
def returnable (s : CacheState) : Pending → Bool
  | .inserted i _ => (s.slots[i]?.map Slot.store) ≠ some 0
  | .found i flags => flags.create && flags.excl || (s.slots[i]?.map Slot.store) ≠ some 0

/-- The condition on a step. -/
def careful (find : Find) (drivers : Drivers) (s : CacheState) : CacheRequest → Bool
  | .lookup name _ calls => (evicted find drivers s name calls).all (evictable s calls)
  | .finish thread => (s.pending[thread]?).all (returnable s)
  | _ => true

structure Inv (s : CacheState) : Prop where
  stores : ∀ (i : Nat) (slot : Slot), s.slots[i]? = some slot → slot.deleted = false →
    slot.store ≠ 0
  held : ∀ i ∈ s.holds, ∃ slot, s.slots[i]? = some slot ∧ (slot.deleted = true ∨ slot.freed = false)
  waiting : ∀ p ∈ s.pending, ∃ slot, s.slots[p.slot]? = some slot ∧ slot.freed = false
  cached : ∀ i ∈ s.head, ∃ slot, s.slots[i]? = some slot ∧ slot.freed = false
  distinct : s.head.Nodup

theorem Inv.holdsOpen {s : CacheState} (inv : Inv s) : HoldsOpen s := by
  intro i hi
  obtain ⟨slot, hslot, state⟩ := inv.held i hi
  by_cases gone : slot.deleted = true
  · exact Or.inr ⟨slot, hslot, gone⟩
  · have kept : slot.deleted = false := by simpa using gone
    exact Or.inl ⟨slot, hslot, state.resolve_left gone, inv.stores i slot hslot kept⟩

/-- One slot changes: it keeps its deletion mark, and is freed only where nothing
refers to it any more. -/
theorem Inv.set {s : CacheState} (inv : Inv s) {i : Nat} {slot : Slot} (slot' : Slot)
    (here : s.slots[i]? = some slot) (store : slot'.deleted = false → slot'.store ≠ 0)
    (mark : slot.deleted = true → slot'.deleted = true)
    (free : slot'.freed = true → slot.freed = true ∨
      i ∉ s.head ∧ (∀ p ∈ s.pending, p.slot ≠ i) ∧ (i ∈ s.holds → slot'.deleted = true)) :
    Inv { s with slots := s.slots.set i slot' } := by
  have inside : i < s.slots.length := (List.getElem?_eq_some_iff.mp here).1
  have same : (s.slots.set i slot')[i]? = some slot' := by simp [inside]
  have other : ∀ {j}, j ≠ i → (s.slots.set i slot')[j]? = s.slots[j]? :=
    fun ne => List.getElem?_set_ne ne.symm
  have old : ∀ {slot'' : Slot}, s.slots[i]? = some slot'' → slot'' = slot :=
    fun h => Option.some.inj (h.symm.trans here)
  constructor
  · intro j slotj hj kept
    by_cases eq : j = i
    · subst eq
      have : slot' = slotj := Option.some.inj (same.symm.trans hj)
      subst this
      exact store kept
    · exact inv.stores j slotj ((other eq).symm.trans hj) kept
  · intro j hj
    obtain ⟨slotj, hslot, state⟩ := inv.held j hj
    by_cases eq : j = i
    · subst eq
      refine ⟨slot', same, ?_⟩
      rw [old hslot] at state
      by_cases freed : slot'.freed = true
      · rcases free freed with was | ⟨-, -, deleted⟩
        · exact Or.inl (mark (state.resolve_right (by simp [was])))
        · exact Or.inl (deleted hj)
      · exact Or.inr (by simpa using freed)
    · exact ⟨slotj, (other eq).trans hslot, state⟩
  · intro p hp
    obtain ⟨slotj, hslot, live⟩ := inv.waiting p hp
    by_cases eq : p.slot = i
    · refine ⟨slot', eq ▸ same, ?_⟩
      rw [eq] at hslot
      rw [old hslot] at live
      by_contra freed
      rcases free (by simpa using freed) with was | ⟨-, nobody, -⟩
      · simp [was] at live
      · exact nobody p hp eq
    · exact ⟨slotj, (other eq).trans hslot, live⟩
  · intro j hj
    obtain ⟨slotj, hslot, live⟩ := inv.cached j hj
    by_cases eq : j = i
    · subst eq
      refine ⟨slot', same, ?_⟩
      rw [old hslot] at live
      by_contra freed
      rcases free (by simpa using freed) with was | ⟨uncached, -, -⟩
      · simp [was] at live
      · exact uncached hj
    · exact ⟨slotj, (other eq).trans hslot, live⟩
  · exact inv.distinct

/-- A new entry keeps the invariant. -/
theorem Inv.insertEntry {s : CacheState} (inv : Inv s) (name : CString) (address : UInt64)
    (calls : CacheCalls) (objectStore : LaObjectStore) (result : LaStorageOpenResult) :
    Inv (insertEntry s name address calls objectStore result) := by
  set new : Slot := { name, address, refcount := calls.garbage + 1, objectStore,
                      opened := calls.store, store := calls.store } with hnew
  have last : (s.slots ++ [new])[s.slots.length]? = some new := by simp
  have keep : ∀ {j : Nat} {slot : Slot}, s.slots[j]? = some slot →
      (s.slots ++ [new])[j]? = some slot := by
    intro j slot h
    rw [List.getElem?_append_left (List.getElem?_eq_some_iff.mp h).1]
    exact h
  constructor
  · intro j slot hj kept
    by_cases old : j < s.slots.length
    · exact inv.stores j slot ((List.getElem?_append_left old).symm.trans hj) kept
    · have bound := (List.getElem?_eq_some_iff.mp hj).1
      have eq : j = s.slots.length := by
        simp only [DbCache.insertEntry, List.length_append, List.length_singleton] at bound
        omega
      subst eq
      have : new = slot := Option.some.inj (last.symm.trans hj)
      subst this
      exact calls.store.2
  · intro j hj
    obtain ⟨slot, hslot, state⟩ := inv.held j hj
    exact ⟨slot, keep hslot, state⟩
  · intro p hp
    rcases List.mem_append.mp hp with hp | hp
    · obtain ⟨slot, hslot, live⟩ := inv.waiting p hp
      exact ⟨slot, keep hslot, live⟩
    · cases List.mem_singleton.mp hp
      exact ⟨new, last, rfl⟩
  · intro j hj
    rcases List.mem_append.mp hj with hj | hj
    · obtain ⟨slot, hslot, live⟩ := inv.cached j hj
      exact ⟨slot, keep hslot, live⟩
    · cases List.mem_singleton.mp hj
      exact ⟨new, last, rfl⟩
  · refine List.nodup_append.mpr ⟨inv.distinct, by simp, ?_⟩
    intro j hj k hk eq
    cases List.mem_singleton.mp hk
    subst eq
    obtain ⟨slot, hslot, -⟩ := inv.cached _ hj
    exact absurd (List.getElem?_eq_some_iff.mp hslot).1 (Nat.lt_irrefl _)

/-- Dropping the oldest entry from the hash. -/
theorem Inv.tail {s : CacheState} (inv : Inv s) {oldest : Nat} {rest : List Nat}
    (head : s.head = oldest :: rest) : Inv { s with head := rest } ∧ oldest ∉ rest := by
  have nodup := inv.distinct
  rw [head, List.nodup_cons] at nodup
  refine ⟨⟨inv.stores, inv.held, inv.waiting, fun i hi => inv.cached i ?_, nodup.2⟩, nodup.1⟩
  rw [head]
  exact List.mem_cons_of_mem _ hi

/-- An eviction keeps the invariant if it takes no last count from an entry in use. -/
theorem Inv.evict {s s' : CacheState} (inv : Inv s) (evicted : evict s = some s')
    (spare : ∀ oldest rest slot, s.head = oldest :: rest → s.maxsize < s.head.length →
      s.slots[oldest]? = some slot → slot.refcount = 1 →
      (∀ p ∈ s.pending, p.slot ≠ oldest) ∧ (oldest ∈ s.holds → slot.deleted = true)) :
    Inv s' := by
  unfold DbCache.evict at evicted
  split at evicted
  · cases evicted
    exact inv
  · rename_i oldest rest head
    split at evicted
    · rename_i full
      obtain ⟨slots, decref, rfl⟩ := Option.map_eq_some_iff.mp evicted
      obtain ⟨tail, gone⟩ := inv.tail head
      unfold cacheDecref at decref
      split at decref
      · cases decref
      · rename_i slot here
        split at decref
        · cases decref
        · have last : slot.refcount - 1 = 0 → slot.refcount = 1 := by bv_omega
          have keepStore := inv.stores oldest slot here
          dsimp only at decref
          split at decref
          · rename_i zero
            split at decref
            · cases decref
            · cases decref
              obtain ⟨nobody, deleted⟩ := spare oldest rest slot head full here (last zero)
              exact tail.set _ here keepStore id fun _ => Or.inr ⟨gone, nobody, deleted⟩
          · cases decref
            exact tail.set _ here keepStore id fun freed => Or.inl freed
    · cases evicted
      exact inv

/-- What the condition says of the entry an insertion pushes out. -/
theorem spare_of_careful {find : Find} {drivers : Drivers} {s : CacheState}
    {name : CString} {address : UInt64} {flags : OpenFlags} {calls : CacheCalls}
    {objectStore : LaObjectStore} {result : LaStorageOpenResult}
    (missed : find s name = none) (allocated : calls.entryAllocated = true)
    (opened : (laDbOpen drivers name calls.db).2.2.isSome = true)
    (ok : careful find drivers s (.lookup name flags calls) = true)
    {oldest : Nat} {rest : List Nat} {slot : Slot}
    (head : (insertEntry s name address calls objectStore result).head = oldest :: rest)
    (full : s.maxsize < (insertEntry s name address calls objectStore result).head.length)
    (here : (insertEntry s name address calls objectStore result).slots[oldest]? = some slot)
    (last : slot.refcount = 1) :
    (∀ p ∈ (insertEntry s name address calls objectStore result).pending, p.slot ≠ oldest) ∧
      (oldest ∈ s.holds → slot.deleted = true) := by
  have pushed : evicted find drivers s name calls = some oldest := by
    have first : (s.head ++ [s.slots.length]).head? = some oldest := by
      have := congrArg List.head? head
      simpa [insertEntry] using this
    have long : s.maxsize < s.head.length + 1 := by simpa [insertEntry] using full
    rw [evicted, if_pos ⟨missed, allocated, opened, long⟩, first]
  have spare : evictable s calls oldest = true := by
    have := ok
    simpa [careful, pushed] using this
  unfold evictable at spare
  split at spare
  · rename_i fresh
    have bound := (List.getElem?_eq_some_iff.mp here).1
    have beyond := List.getElem?_eq_none_iff.mp fresh
    have eq : oldest = s.slots.length := by
      simp only [insertEntry, List.length_append, List.length_singleton] at bound
      omega
    subst eq
    simp only [insertEntry, List.getElem?_concat_length, Option.some.injEq] at here
    subst here
    exact absurd last (of_decide_eq_true spare)
  · rename_i slot0 old
    have inside := (List.getElem?_eq_some_iff.mp old).1
    have same : slot0 = slot := by
      rw [insertEntry, List.getElem?_append_left inside, old] at here
      exact Option.some.inj here
    subst same
    simp only [last, ne_eq, not_true_eq_false, decide_false, Bool.false_or, Bool.and_eq_true,
      List.all_eq_true, decide_eq_true_eq, Bool.or_eq_true, Bool.not_eq_true',
      List.contains_eq_mem, decide_eq_false_iff_not] at spare
    refine ⟨fun p hp => ?_, fun held => spare.2.resolve_right (fun h => h held)⟩
    rcases List.mem_append.mp hp with hp | hp
    · exact spare.1 p hp
    · cases List.mem_singleton.mp hp
      exact Nat.ne_of_gt inside

theorem lookup_keeps {find : Find} (finds : ∀ s, FindsKey s (find s)) {drivers : Drivers}
    {s s' : CacheState} {name : CString} {flags : OpenFlags} {calls : CacheCalls}
    {reply : CacheReply} (inv : Inv s)
    (ok : careful find drivers s (.lookup name flags calls) = true)
    (h : lookup find drivers s name flags calls = some (reply, s')) :
    Inv s' ∧ ∀ i result, reply ≠ .handedOut i result := by
  unfold lookup at h
  split at h
  · rename_i i found
    cases h
    refine ⟨?_, fun _ _ => nofun⟩
    have cached : i ∈ s.head := ((finds s).found name i found).1
    have live := inv.cached i cached
    have moved : ∀ j ∈ s.head.erase i ++ [i], j ∈ s.head := by
      intro j hj
      rcases List.mem_append.mp hj with hj | hj
      · exact List.mem_of_mem_erase hj
      · exact List.mem_singleton.mp hj ▸ cached
    refine ⟨inv.stores, inv.held, fun p hp => ?_, fun j hj => inv.cached j (moved j hj), ?_⟩
    · rcases List.mem_append.mp hp with hp | hp
      · exact inv.waiting p hp
      · cases List.mem_singleton.mp hp
        exact live
    · refine List.nodup_append.mpr ⟨inv.distinct.erase i, by simp, ?_⟩
      intro j hj k hk eq
      cases List.mem_singleton.mp hk
      subst eq
      exact inv.distinct.not_mem_erase hj
  · rename_i missed
    split at h
    · cases h
      exact ⟨inv, fun _ _ => nofun⟩
    · rename_i allocated
      split at h
      · rename_i result asked objectStore opened
        split at h
        · cases h
        · rename_i address copied
          obtain ⟨next, pushed, eq⟩ := Option.map_eq_some_iff.mp h
          cases eq
          refine ⟨(inv.insertEntry name address calls objectStore result).evict pushed ?_,
            fun _ _ => nofun⟩
          intro oldest rest slot head full here last
          exact spare_of_careful missed (by simpa using allocated) (by simp [opened]) ok head full
            here last
      · cases h
        exact ⟨inv, fun _ _ => nofun⟩

/-- Someone new holds a handle, and an open is no longer under way. -/
theorem Inv.handOut {s : CacheState} (inv : Inv s) {i : Nat} {slot : Slot} (thread : Nat)
    (here : s.slots[i]? = some slot) (live : slot.freed = false) :
    Inv { s with pending := s.pending.eraseIdx thread, holds := i :: s.holds } := by
  refine ⟨inv.stores, fun j hj => ?_, fun p hp => ?_, inv.cached, inv.distinct⟩
  · rcases List.mem_cons.mp hj with rfl | hj
    · exact ⟨slot, here, Or.inr live⟩
    · exact inv.held j hj
  · exact inv.waiting p (List.mem_of_mem_eraseIdx hp)

theorem finish_keeps {find : Find} {drivers : Drivers} {s s' : CacheState} {thread : Nat}
    {reply : CacheReply} (inv : Inv s) (ok : careful find drivers s (.finish thread) = true)
    (h : finish s thread = some (reply, s')) :
    Inv s' ∧ ∀ i result, reply = .handedOut i result → IsOpen s' i := by
  unfold finish at h
  split at h
  · cases h
  · rename_i open' pending
    have mayReturn : returnable s open' = true := by simpa [careful, pending] using ok
    split at h
    · cases h
    · rename_i slot here
      cases open' with
      | inserted i result =>
        have store : slot.store ≠ 0 := by
          have : s.slots[i]? = some slot := here
          simpa [returnable, this] using mayReturn
        dsimp only at h
        split at h
        · cases h
        · rename_i live
          have kept : slot.freed = false := by simpa using live
          cases h
          refine ⟨inv.handOut thread here kept, ?_⟩
          rintro j r ⟨⟩
          exact ⟨slot, here, kept, store⟩
      | found i flags =>
        dsimp only at h
        split at h
        · cases h
          refine ⟨⟨inv.stores, inv.held, fun p hp => ?_, inv.cached, inv.distinct⟩, nofun⟩
          exact inv.waiting p (List.mem_of_mem_eraseIdx hp)
        · rename_i notExcl
          split at h
          · cases h
          · rename_i live
            have at_i : s.slots[i]? = some slot := here
            have kept : slot.freed = false := by simpa using live
            have store : slot.store ≠ 0 := by
              simpa [returnable, at_i, notExcl] using mayReturn
            cases h
            have counted := inv.set { slot with refcount := slot.refcount + 1 } at_i
              (fun _ => store) id fun freed => Or.inl freed
            have inside : i < s.slots.length := (List.getElem?_eq_some_iff.mp at_i).1
            have now : (s.slots.set i { slot with refcount := slot.refcount + 1 })[i]? =
                some { slot with refcount := slot.refcount + 1 } := by simp [inside]
            refine ⟨counted.handOut thread now kept, ?_⟩
            rintro j r ⟨⟩
            exact ⟨_, now, kept, store⟩

theorem Inv.release {s : CacheState} (inv : Inv s) (i : Nat) :
    Inv { s with holds := s.holds.erase i } :=
  ⟨inv.stores, fun j hj => inv.held j (List.mem_of_mem_erase hj), inv.waiting, inv.cached,
    inv.distinct⟩

theorem append_ne_zero (high : BitVec 32) {low : BitVec 32} (h : low ≠ 0) : high ++ low ≠ 0#64 := by
  intro eq
  have value := congrArg BitVec.toNat eq
  rw [BitVec.toNat_append] at value
  exact h (BitVec.eq_of_toNat_eq (Nat.or_eq_zero_iff.mp value).2)

theorem cacheClose_keeps {s s' : CacheState} {i : Nat} {reply : CacheReply} (inv : Inv s)
    (h : cacheClose s i = some (reply, s')) : Inv s' ∧ reply = .done := by
  unfold cacheClose at h
  split at h
  · split at h
    · cases h
    · rename_i slot here
      dsimp only at h
      split at h
      · cases h
      · rename_i intact
        cases h
        have low : slot.store.extractLsb' 0 32 - 1 ≠ 0 := fun zero => intact (Or.inr zero)
        have kept := inv.set { slot with
          store := slot.store.extractLsb' 32 32 ++ (slot.store.extractLsb' 0 32 - 1) } here
          (fun _ => append_ne_zero _ low) id fun freed => Or.inl freed
        exact ⟨kept.release i, rfl⟩
  · cases h

theorem cacheDelete_keeps {s s' : CacheState} {i : Nat} {deleted : Bool} {reply : CacheReply}
    (inv : Inv s) (h : cacheDelete s i deleted = some (reply, s')) : Inv s' ∧ reply = .done := by
  unfold cacheDelete at h
  split at h
  · split at h
    · cases h
    · rename_i slot here
      split at h
      · cases h
      · obtain ⟨asked, -, eq⟩ := Option.map_eq_some_iff.mp h
        cases eq
        refine ⟨inv.set _ here nofun (fun _ => rfl) fun freed => Or.inl freed, rfl⟩
  · cases h

theorem step_keeps {find : Find} (finds : ∀ s, FindsKey s (find s)) {drivers : Drivers}
    {s : CacheState} {r : CacheRequest} (inv : Inv s)
    (ok : careful find drivers s r = true) :
    Inv (step find drivers s r).2 ∧
      ∀ i result, (step find drivers s r).1 = some (.handedOut i result) →
        IsOpen (step find drivers s r).2 i := by
  unfold step
  split
  · rename_i reply s' served
    cases r with
    | lookup name flags calls =>
      obtain ⟨next, quiet⟩ := lookup_keeps finds inv ok served
      exact ⟨next, fun i result h => absurd (Option.some.inj h) (quiet i result)⟩
    | finish thread =>
      obtain ⟨next, opened⟩ := finish_keeps inv ok served
      exact ⟨next, fun i result h => opened i result (Option.some.inj h)⟩
    | close i =>
      obtain ⟨next, rfl⟩ := cacheClose_keeps inv served
      exact ⟨next, nofun⟩
    | delete i deleted =>
      obtain ⟨next, rfl⟩ := cacheDelete_keeps inv served
      exact ⟨next, nofun⟩
  · exact ⟨inv, nofun⟩

theorem inv_init (maxsize : Nat) : Inv { maxsize } := by
  constructor <;> simp

/-- While every step is careful, each handle is open when it is handed out, and every
handle held stays open until it is closed or its database deleted. -/
theorem handed_out_open {find : Find} (finds : ∀ s, FindsKey s (find s)) (drivers : Drivers)
    (maxsize : Nat) (requests : List CacheRequest)
    (ok : ∀ e ∈ Runs.events (step find drivers) { maxsize } requests,
      careful find drivers e.before e.input = true) :
    (∀ e ∈ Runs.events (step find drivers) { maxsize } requests,
      HoldsOpen e.after ∧ ∀ i result, e.output = some (.handedOut i result) → IsOpen e.after i) ∧
    HoldsOpen (Runs.final (step find drivers) { maxsize } requests) := by
  have run := Runs.preserved Inv (fun s r inv fair => (step_keeps finds inv fair).1)
    (inv_init maxsize) ok
  refine ⟨fun e he => ⟨(run.1 e he).2.holdsOpen, ?_⟩, run.2.holdsOpen⟩
  rw [Runs.event_of_mem he]
  exact (step_keeps finds (run.1 e he).1 (ok e he)).2

section Runs

private def bdbName : CString := .ofBytes [66, 68, 66]

private def bdbDriver : Drivers := fun name => if name = bdbName then some ⟨false⟩ else none

private def plain : OpenFlags := ⟨false, false⟩

/-- A copy of the name at an address that begins with its bytes. -/
private def keyed : CacheCalls := { garbage := 7, copy := some 0x424442 }

/-- A handle opened, opened again from the cache, and closed by one holder. -/
private def sharedHandle : List CacheRequest :=
  [.lookup bdbName plain keyed, .finish 0, .lookup bdbName plain {}, .finish 0, .close 0]

/-- One database opened twice, in a cache of one. -/
private def openedTwice : List CacheRequest :=
  [.lookup bdbName plain {}, .finish 0, .lookup bdbName plain {}]

theorem shared_handle_open :
    (Runs.events (step findOldest bdbDriver) { maxsize := 1 } sharedHandle).map
        Runs.Event.output =
        [some .waiting, some (.handedOut 0 .ok), some .waiting, some (.handedOut 0 .ok),
          some .done] ∧
      HoldsOpen (Runs.final (step findOldest bdbDriver) { maxsize := 1 } sharedHandle) :=
  ⟨by decide, (handed_out_open findOldest_findsKey bdbDriver 1 sharedHandle (by decide)).2⟩

/-- The name is not found again, and the eviction takes the only count of a handle that its opener
still holds. -/
theorem held_handle_closed :
    (∀ s, FindsKey s (findOldest s)) ∧
    (Runs.events (step findOldest bdbDriver) { maxsize := 1 } openedTwice).map
        Runs.Event.output =
        [some .waiting, some (.handedOut 0 .ok), some .waiting] ∧
      ¬HoldsOpen (Runs.final (step findOldest bdbDriver) { maxsize := 1 } openedTwice) :=
  ⟨findOldest_findsKey, by decide⟩

end Runs

end DbCache
