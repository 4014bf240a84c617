import Lounge.Lib.CString
import Lounge.Lib.FlatMemory
import Lounge.Lib.LittleEndian
import Lounge.Utils.UthashRuns

/-!
# Drivers in the hash table

`la_storage_install_driver` of `Storage/ObjectStore.c` on the table of `utils/uthash.h`.
`HASH_ADD_STR` takes the key to be in the entry, from the field that is named on, and `name` is a
pointer: an entry is found by the bytes of that pointer and not by the string behind it.
-/

namespace DriverHash
open FlatMemory LittleEndian Uthash

/-- A call of `la_storage_install_driver`: the string and the address it is at, the driver's, the
block from `malloc`, and what follows the two pointers there, the handle first. -/
structure Install where
  text : CString
  name : UInt64
  driver : UInt64
  block : Option UInt64
  behind : Memory

/-- `struct driver_entry`, from `name` on. -/
def Install.entry (i : Install) : Memory :=
  load (bytesLE 8 i.name.toNat ++ bytesLE 8 i.driver.toNat) i.behind

/-- The key of `HASH_ADD_STR(drivers, name, e)`: `strlen(e->name)` bytes at `&e->name`. -/
def Install.key (i : Install) : List UInt8 := read i.entry 0 i.text.strlen

/-- `HASH_FIND_STR`. -/
def hashFindStr (drivers : Hash UInt64) (text : CString) : Option (Option UInt64) :=
  hashFind drivers text.bytes

/-- `la_storage_install_driver`. The block is written to unseen. -/
def laStorageInstallDriver (allocates : Nat → Bool) (drivers : Hash UInt64) (i : Install) :
    Option (Int × Hash UInt64) :=
  match hashFindStr drivers i.text with
  | none => none
  | some (some _) => some (-1, drivers)
  | some none =>
    i.block.bind fun e => (hashAddKeyptr allocates drivers e i.key).map fun added => (0, added)

/-- One call after the other: what they return, and the table after them. -/
def installAll (allocates : Nat → Bool) :
    Hash UInt64 → List Install → Option (List Int × Hash UInt64)
  | drivers, [] => some ([], drivers)
  | drivers, i :: rest =>
    (laStorageInstallDriver allocates drivers i).bind fun ret =>
      (installAll allocates ret.2 rest).map fun rets => (ret.1 :: rets.1, rets.2)

section Keys
variable {entry : Memory} {name : UInt64} {stored : CString}

/-- An address below `2 ^ 56` ends with a zero. -/
theorem bytesLE_address (address : name.toNat < 2 ^ 56) :
    bytesLE 8 name.toNat = bytesLE 7 name.toNat ++ [0] := by
  have top : name.toNat / 256 ^ 7 = 0 := Nat.div_eq_of_lt (by simpa using address)
  rw [bytesLE_snoc, top]
  rfl

/-- No string is the key of an entry with a longer name. -/
theorem short_of_key (pointer : read entry 0 8 = bytesLE 8 name.toNat)
    (address : name.toNat < 2 ^ 56) {text : CString}
    (same : text.bytes = read entry 0 stored.strlen) : stored.strlen < 8 := by
  by_contra long
  have first : (read entry 0 stored.strlen).take 8 = bytesLE 7 name.toNat ++ [0] := by
    rw [take_read entry 0 (Nat.not_lt.mp long), pointer, bytesLE_address address]
  apply text.noNul
  rw [same]
  exact List.mem_of_mem_take (first ▸ List.mem_append_right _ (List.mem_singleton_self 0))

/-- A string is the key of an entry exactly if it is as long as the name, and a part of the pointer
to it. -/
theorem key_iff (pointer : read entry 0 8 = bytesLE 8 name.toNat)
    (address : name.toNat < 2 ^ 56) (text : CString) :
    text.bytes = read entry 0 stored.strlen ↔ text.strlen < 8 ∧ stored.strlen = text.strlen ∧
      text.bytes = (bytesLE 8 name.toNat).take text.strlen := by
  constructor
  · intro same
    have short := short_of_key pointer address same
    have length : text.strlen = stored.strlen := by rw [CString.strlen, same, length_read]
    rw [← take_read entry 0 short.le, pointer, ← length] at same
    exact ⟨length ▸ short, length.symm, same⟩
  · rintro ⟨short, length, part⟩
    rw [length, ← take_read entry 0 short.le, pointer]
    exact part

end Keys

/-- An entry begins with the pointer to its name. -/
theorem Install.pointer (i : Install) : read i.entry 0 8 = bytesLE 8 i.name.toNat := by
  rw [Install.entry, read_load (by simp), List.drop_zero, List.take_left' (length_bytesLE ..)]

/-- The entries made, with their keys: those of the calls that returned 0. -/
def entriesOf (is : List Install) (rets : List Int) : List (UInt64 × List UInt8) :=
  (is.zip rets).filterMap fun call =>
    if call.2 = 0 then call.1.block.map fun e => (e, call.1.key) else none

section Runs
variable {allocates : Nat → Bool} {drivers drivers' : Hash UInt64}
  {entries : List (UInt64 × List UInt8)}

/-- The table holds these entries, each with a name as `Install` has them. -/
structure Holds (drivers : Hash UInt64) (entries : List (UInt64 × List UInt8)) : Prop where
  represents : Represents drivers entries
  short : ∀ e key, (e, key) ∈ entries → ∀ text : CString, text.bytes = key → text.strlen < 8

/-- What one call does. -/
theorem install_cases {i : Install} {ret : Int × Hash UInt64} (holds : Holds drivers entries)
    (address : i.name.toNat < 2 ^ 56) (fresh : ∀ e ∈ i.block, e ∉ entries.map Prod.fst)
    (few : entries.length + 1 < 2 ^ 32)
    (returned : laStorageInstallDriver allocates drivers i = some ret) :
    ret.1 = -1 ∧ ret.2 = drivers ∧ i.text.strlen < 8 ∨
      ret.1 = 0 ∧ ∃ e, i.block = some e ∧ Holds ret.2 (entries ++ [(e, i.key)]) := by
  obtain ⟨out, found, there, -⟩ := holds.represents.answers.find i.text.bytes
  rw [laStorageInstallDriver, hashFindStr, found] at returned
  cases out with
  | some e =>
    obtain rfl := Option.some.inj returned
    exact Or.inl ⟨rfl, rfl, holds.short e _ (there e rfl) i.text rfl⟩
  | none =>
    obtain ⟨e, block, added⟩ := Option.bind_eq_some_iff.mp returned
    obtain ⟨drivers', done, rfl⟩ := Option.map_eq_some_iff.mp added
    refine Or.inr ⟨rfl, e, block, ?_⟩
    rcases hashAddKeyptr_spec allocates i.key holds.represents (fresh e block) few with
      ⟨failed, -⟩ | ⟨_, succeeded, represents⟩
    · rw [failed] at done
      cases done
    · rw [succeeded] at done
      obtain rfl := Option.some.inj done
      refine ⟨represents, fun e' key here text same => ?_⟩
      rcases List.mem_append.mp here with old | new
      · exact holds.short e' key old text same
      · obtain ⟨rfl, rfl⟩ := Prod.mk.inj (List.mem_singleton.mp new)
        exact ((key_iff i.pointer address text).mp same).1

theorem fresh_block {i : Install} {rest : List Install}
    (fresh : (entries.map Prod.fst ++ (i :: rest).filterMap Install.block).Nodup) :
    ∀ e ∈ i.block, e ∉ entries.map Prod.fst := by
  intro e block old
  rw [List.filterMap_cons_some block] at fresh
  exact (List.nodup_append.mp fresh).2.2 e old e List.mem_cons_self rfl

/-- Only a name shorter than a pointer is ever refused. -/
def Returned (call : Install × Int) : Prop :=
  (call.2 = 0 ∧ ∃ e, call.1.block = some e) ∨ (call.2 = -1 ∧ call.1.text.strlen < 8)

/-- What a run does. -/
theorem installAll_holds {is : List Install} {rets : List Int} (holds : Holds drivers entries)
    (address : ∀ i ∈ is, i.name.toNat < 2 ^ 56)
    (fresh : (entries.map Prod.fst ++ is.filterMap Install.block).Nodup)
    (few : entries.length + is.length < 2 ^ 32)
    (ran : installAll allocates drivers is = some (rets, drivers')) :
    Holds drivers' (entries ++ entriesOf is rets) ∧ ∀ call ∈ is.zip rets, Returned call := by
  induction is generalizing drivers entries rets with
  | nil =>
    obtain ⟨rfl, rfl⟩ := Prod.mk.inj (Option.some.inj ran)
    simpa [entriesOf] using holds
  | cons i rest ih =>
    obtain ⟨ret, first, later⟩ := Option.bind_eq_some_iff.mp ran
    obtain ⟨⟨rets', after⟩, others, same⟩ := Option.map_eq_some_iff.mp later
    obtain ⟨rfl, rfl⟩ := Prod.mk.inj same
    have address' : ∀ j ∈ rest, j.name.toNat < 2 ^ 56 :=
      fun j hj => address j (List.mem_cons_of_mem i hj)
    rw [List.length_cons] at few
    rcases install_cases holds (address i List.mem_cons_self) (fresh_block fresh) (by omega) first
      with ⟨refused, unchanged, short⟩ | ⟨accepted, e, block, holds'⟩
    · rw [unchanged] at others
      obtain ⟨after', returns⟩ := ih holds address'
        (fresh.sublist ((List.Sublist.refl _).append
          ((List.sublist_cons_self i rest).filterMap Install.block))) (by omega) others
      have none_made : entriesOf (i :: rest) (ret.1 :: rets') = entriesOf rest rets' := by
        simp [entriesOf, refused]
      refine ⟨none_made ▸ after', ?_⟩
      rw [List.zip_cons_cons, List.forall_mem_cons]
      exact ⟨Or.inr ⟨refused, short⟩, returns⟩
    · rw [List.filterMap_cons_some block] at fresh
      obtain ⟨after', returns⟩ := ih holds' address'
        (by simpa [List.append_assoc] using fresh)
        (by rw [List.length_append, List.length_singleton]; omega) others
      have made : entries ++ entriesOf (i :: rest) (ret.1 :: rets') =
          entries ++ [(e, i.key)] ++ entriesOf rest rets' := by
        simp [entriesOf, accepted, block]
      refine ⟨made ▸ after', ?_⟩
      rw [List.zip_cons_cons, List.forall_mem_cons]
      exact ⟨Or.inl ⟨accepted, e, block⟩, returns⟩

/-- What a search by name finds in the end. -/
theorem Holds.finds (holds : Holds drivers entries) (text : CString) :
    ∃ out, hashFindStr drivers text = some out ∧
      (out.isSome ↔ ∃ e, (e, text.bytes) ∈ entries) := by
  obtain ⟨out, found, there, missing⟩ := holds.represents.answers.find text.bytes
  refine ⟨out, found, ?_⟩
  cases out with
  | none => simpa using missing rfl
  | some e => simpa using ⟨e, there e rfl⟩

end Runs

theorem mem_entriesOf {is : List Install} {rets : List Int} {key : List UInt8}
    (returns : ∀ call ∈ is.zip rets, Returned call) :
    (∃ e, (e, key) ∈ entriesOf is rets) ↔ ∃ i, (i, 0) ∈ is.zip rets ∧ key = i.key := by
  simp only [entriesOf, List.mem_filterMap]
  constructor
  · rintro ⟨e, ⟨i, ret⟩, called, made⟩
    by_cases accepted : ret = 0
    · subst accepted
      obtain ⟨-, rfl⟩ : i.block = some e ∧ i.key = key := by simpa using made
      exact ⟨i, called, rfl⟩
    · simp [accepted] at made
  · rintro ⟨i, called, rfl⟩
    rcases returns _ called with ⟨-, e, block⟩ | ⟨refused, -⟩
    · exact ⟨e, (i, 0), called, by simpa using block⟩
    · cases refused

/-- Whatever is installed: a name of eight bytes or more is never refused and never found, and a
shorter one is found exactly if it is as long as a name that was installed, and that name's address
begins with its bytes. -/
theorem installed_found_iff (allocates : Nat → Bool) {drivers drivers' : Hash UInt64}
    {is : List Install} {rets : List Int} (empty : drivers.head = none)
    (address : ∀ i ∈ is, i.name.toNat < 2 ^ 56) (fresh : (is.filterMap Install.block).Nodup)
    (few : is.length < 2 ^ 32) (ran : installAll allocates drivers is = some (rets, drivers')) :
    (∀ call ∈ is.zip rets, call.2 = 0 ∨ call.2 = -1 ∧ call.1.text.strlen < 8) ∧
      ∀ text, ∃ out, hashFindStr drivers' text = some out ∧
        (out.isSome ↔ text.strlen < 8 ∧ ∃ i, (i, 0) ∈ is.zip rets ∧
          i.text.strlen = text.strlen ∧
          text.bytes = (bytesLE 8 i.name.toNat).take text.strlen) := by
  have start : Holds drivers [] :=
    ⟨Or.inl ⟨empty, rfl⟩, fun _ _ here => absurd here List.not_mem_nil⟩
  obtain ⟨holds, returns⟩ := installAll_holds start address fresh (by simpa using few) ran
  refine ⟨fun call called => (returns call called).imp_left And.left, fun text => ?_⟩
  obtain ⟨out, found, some_iff⟩ := holds.finds text
  refine ⟨out, found, some_iff.trans ?_⟩
  rw [List.nil_append, mem_entriesOf returns]
  constructor
  · rintro ⟨i, called, same⟩
    obtain ⟨short, length, part⟩ :=
      (key_iff i.pointer (address i (List.of_mem_zip called).1) text).mp same
    exact ⟨short, i, called, length, part⟩
  · rintro ⟨short, i, called, length, part⟩
    exact ⟨i, called,
      (key_iff i.pointer (address i (List.of_mem_zip called).1) text).mpr ⟨short, length, part⟩⟩

/-- A call of the run that installed a driver. -/
def Installed (is : List Install) (rets : List Int) (name : CString) (driver : UInt64) : Prop :=
  ∃ i, (i, 0) ∈ is.zip rets ∧ i.text = name ∧ i.driver = driver

/-- A call that installed an entry with this key: its name is as long, and the address of that name
begins with the bytes of this one. -/
structure KeyedBy (is : List Install) (rets : List Int) (name : CString) (i : Install) : Prop where
  called : (i, 0) ∈ is.zip rets
  short : name.strlen < 8
  length : i.text.strlen = name.strlen
  part : name.bytes = (bytesLE 8 i.name.toNat).take name.strlen

/-- The driver of the entry that `HASH_FIND_STR` finds. The entries are in the blocks of the calls
that made them. -/
def findDriver (is : List Install) (drivers : Hash UInt64) (name : CString) : Option UInt64 :=
  (hashFindStr drivers name).join.bind fun e =>
    (is.find? fun i => i.block == some e).map Install.driver

/-- The calls are those of a program: addresses below `2 ^ 56`, and no block twice. -/
structure Placed (is : List Install) : Prop where
  address : ∀ i ∈ is, i.name.toNat < 2 ^ 56
  fresh : (is.filterMap Install.block).Nodup
  few : is.length < 2 ^ 32

theorem find_block {is : List Install} (fresh : (is.filterMap Install.block).Nodup) {i : Install}
    (mem : i ∈ is) {e : UInt64} (block : i.block = some e) :
    is.find? (fun j => j.block == some e) = some i := by
  induction is with
  | nil => cases mem
  | cons j rest ih =>
    rcases List.mem_cons.mp mem with rfl | mem
    · rw [List.find?_cons_of_pos (by simp [block])]
    · have other : j.block ≠ some e := by
        intro same
        rw [List.filterMap_cons_some same, List.nodup_cons] at fresh
        exact fresh.1 (List.mem_filterMap.mpr ⟨i, mem, block⟩)
      rw [List.find?_cons_of_neg (by simpa using other)]
      exact ih (fresh.sublist ((List.sublist_cons_self j rest).filterMap Install.block)) mem

/-- What is found under a name is a driver that was installed with the name's key, if there is
one. -/
theorem findDriver_spec {allocates : Nat → Bool} {drivers drivers' : Hash UInt64}
    {is : List Install} {rets : List Int} (empty : drivers.head = none) (placed : Placed is)
    (ran : installAll allocates drivers is = some (rets, drivers')) (name : CString) :
    (∀ d, findDriver is drivers' name = some d → ∃ i, KeyedBy is rets name i ∧ i.driver = d) ∧
      (findDriver is drivers' name = none → ∀ i, ¬KeyedBy is rets name i) := by
  have start : Holds drivers [] :=
    ⟨Or.inl ⟨empty, rfl⟩, fun _ _ here => absurd here List.not_mem_nil⟩
  obtain ⟨holds, returns⟩ :=
    installAll_holds start placed.address placed.fresh (by simpa using placed.few) ran
  obtain ⟨out, found, there, missing⟩ := holds.represents.answers.find name.bytes
  have lookup : hashFindStr drivers' name = some out := found
  cases out with
  | none =>
    refine ⟨fun d here => by simp [findDriver, lookup] at here, fun _ i keyed => ?_⟩
    have key := (key_iff i.pointer (placed.address i (List.of_mem_zip keyed.called).1) name).mpr
      ⟨keyed.short, keyed.length, keyed.part⟩
    obtain ⟨e, here⟩ := (mem_entriesOf returns).mpr ⟨i, keyed.called, key⟩
    exact missing rfl e here
  | some e =>
    have here := there e rfl
    rw [List.nil_append] at here
    obtain ⟨⟨i, ret⟩, called, made⟩ := List.mem_filterMap.mp here
    have accepted : ret = 0 := by
      by_contra refused
      simp [refused] at made
    subst accepted
    obtain ⟨block, key⟩ : i.block = some e ∧ i.key = name.bytes := by simpa using made
    have mem := (List.of_mem_zip called).1
    have driver : findDriver is drivers' name = some i.driver := by
      rw [findDriver, lookup, Option.join_some, Option.bind_some,
        find_block placed.fresh mem block, Option.map_some]
    rw [driver]
    refine ⟨fun d same => ?_, nofun⟩
    obtain ⟨short, length, part⟩ := (key_iff i.pointer (placed.address i mem) name).mp key.symm
    exact ⟨i, ⟨called, short, length, part⟩, Option.some.inj same⟩

section Samples

/-- An empty hash. -/
def noDrivers : Hash UInt64 :=
  ⟨none, hashMakeTable 0,
    ⟨fun _ => none, fun _ => none, fun _ => none, fun _ => none, fun _ => [], fun _ => 0⟩⟩

/-- With memory for it the first driver is installed. -/
theorem install_first {i : Install} {e : UInt64} (block : i.block = some e) :
    ∃ drivers, installAll (fun _ => true) noDrivers [i] = some ([0], drivers) := by
  have represents : Represents noDrivers [] := Or.inl ⟨rfl, rfl⟩
  rcases hashAddKeyptr_spec (fun _ => true) i.key (x := e) represents List.not_mem_nil (by decide)
    with ⟨-, memory⟩ | ⟨drivers, added, -⟩
  · simp [OutOfMemory, noDrivers] at memory
  · refine ⟨drivers, ?_⟩
    have absent : hashFindStr noDrivers i.text = some none := rfl
    have first : laStorageInstallDriver (fun _ => true) noDrivers i = some (0, drivers) := by
      rw [laStorageInstallDriver, absent, block]
      simp only [Option.bind_some, added, Option.map_some]
    rw [installAll, first]
    rfl

/-- A program with the string `BDB` at `0x400000`. -/
private def installBdb : Install :=
  ⟨CString.ofBytes [66, 68, 66], 0x400000, 0x500000, some 0x600000, fun _ => 0⟩

/-- Its driver is installed, and not found by its name. -/
theorem installed_not_found :
    ∃ drivers, installAll (fun _ => true) noDrivers [installBdb] = some ([0], drivers) ∧
      hashFindStr drivers (CString.ofBytes [66, 68, 66]) = some none := by
  obtain ⟨drivers, ran⟩ := install_first (i := installBdb) rfl
  refine ⟨drivers, ran, ?_⟩
  obtain ⟨out, found, some_iff⟩ := (installed_found_iff (fun _ => true) rfl (by decide)
    (by decide) (by decide) ran).2 (CString.ofBytes [66, 68, 66])
  rw [found]
  cases out with
  | none => rfl
  | some e =>
    obtain ⟨-, i, called, -, part⟩ := some_iff.mp rfl
    obtain ⟨rfl, -⟩ := Prod.mk.inj (List.mem_singleton.mp called)
    exact absurd part (by decide)

end Samples

end DriverHash
