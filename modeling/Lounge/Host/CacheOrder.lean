import Lounge.Host.DbCache
import Lounge.Lib.Recency

/-!
# The order of the cache

The names in the database cache, oldest first, are those of the last `maxsize` different
names that `db_cache_open` found or added. Here, and only here, `uthash` is taken as a map from
the names that keeps the order of insertion.
-/

namespace CacheOrder
open HostLifetime DbCache Recency Runs

/-- `HASH_FIND_STR` in such a map. -/
def findEntry : Find := fun s name =>
  s.head.find? fun i => (s.slots[i]?.map Slot.name) == some name

/-- The name of an entry. -/
def nameAt (s : CacheState) (i : Nat) : Option CString := s.slots[i]?.map Slot.name

/-- The names in the hash, in its order. -/
def cachedNames (s : CacheState) : List CString := s.head.filterMap (nameAt s)

/-- The name that a `db_cache_open` found or added. -/
def opened (e : Event CacheState CacheRequest (Option CacheReply)) : Option CString :=
  match e.input, e.output with
  | .lookup name _ _, some .waiting => some name
  | _, _ => none

structure Ordered (s : CacheState) : Prop where
  entries : ∀ i ∈ s.head, ∃ name, nameAt s i = some name
  distinct : s.head.Pairwise fun i j => nameAt s i ≠ nameAt s j
  bounded : s.head.length ≤ s.maxsize

section State
variable {s s' : CacheState}

/-- The hash has the same entries, under the same names. -/
structure KeepsNames (s s' : CacheState) : Prop where
  head : s'.head = s.head
  maxsize : s'.maxsize = s.maxsize
  names : ∀ i, nameAt s' i = nameAt s i

theorem KeepsNames.cachedNames (keeps : KeepsNames s s') : cachedNames s' = cachedNames s := by
  rw [CacheOrder.cachedNames, CacheOrder.cachedNames, keeps.head]
  exact List.filterMap_congr fun i _ => keeps.names i

theorem KeepsNames.ordered (keeps : KeepsNames s s') (order : Ordered s) : Ordered s' := by
  constructor
  · intro i hi
    rw [keeps.head] at hi
    rw [keeps.names]
    exact order.entries i hi
  · rw [keeps.head]
    exact order.distinct.imp fun ne => by rwa [keeps.names, keeps.names]
  · rw [keeps.head, keeps.maxsize]
    exact order.bounded

theorem length_cachedNames (entries : ∀ i ∈ s.head, ∃ name, nameAt s i = some name) :
    (cachedNames s).length = s.head.length := by
  rw [cachedNames, List.filterMap_length_eq_length]
  intro i hi
  obtain ⟨name, hname⟩ := entries i hi
  rw [hname]
  rfl

theorem Ordered.length (order : Ordered s) : (cachedNames s).length = s.head.length :=
  length_cachedNames order.entries

theorem Ordered.nodup (order : Ordered s) : (cachedNames s).Nodup := by
  refine List.pairwise_filterMap.mpr (order.distinct.imp fun ne => ?_)
  rintro a ha b hb rfl
  exact ne (ha.trans hb.symm)

theorem findEntry_none {name : CString} :
    findEntry s name = none ↔ name ∉ cachedNames s := by
  simp [findEntry, cachedNames, nameAt]

theorem findEntry_some {name : CString} {i : Nat} (found : findEntry s name = some i) :
    i ∈ s.head ∧ nameAt s i = some name := by
  have here := List.find?_some found
  exact ⟨List.mem_of_find?_eq_some found, by simpa [nameAt] using here⟩

/-- One slot changes, and keeps its name. -/
theorem nameAt_set {slots : List Slot} {i : Nat} {slot slot' : Slot}
    (here : slots[i]? = some slot) (same : slot'.name = slot.name) (j : Nat) :
    (slots.set i slot')[j]?.map Slot.name = slots[j]?.map Slot.name := by
  have inside : i < slots.length := (List.getElem?_eq_some_iff.mp here).1
  by_cases eq : j = i
  · subst eq
    rw [List.getElem?_set_self inside, here]
    simp [same]
  · rw [List.getElem?_set_ne (Ne.symm eq)]

theorem cacheDecref_names {slots slots' : List Slot} {i : Nat}
    (decref : cacheDecref slots i = some slots') (j : Nat) :
    slots'[j]?.map Slot.name = slots[j]?.map Slot.name := by
  unfold cacheDecref at decref
  split at decref
  · cases decref
  · rename_i slot here
    split at decref
    · cases decref
    · dsimp only at decref
      split at decref
      · split at decref
        · cases decref
        · cases decref
          apply nameAt_set here
          rfl
      · cases decref
        apply nameAt_set here
        rfl

end State

section Lookup
variable {s s' : CacheState} {name : CString}

/-- A hit moves the name to the end. -/
theorem Ordered.hit (order : Ordered s) {i : Nat} (found : findEntry s name = some i)
    (flags : OpenFlags) :
    let s' := { s with head := s.head.erase i ++ [i], pending := s.pending ++ [.found i flags] }
    Ordered s' ∧ cachedNames s' = touch (cachedNames s) name := by
  obtain ⟨cached, named⟩ := findEntry_some found
  have nodup : s.head.Nodup := order.distinct.imp fun ne eq => ne (congrArg (nameAt s) eq)
  have other : ∀ j ∈ s.head, j ≠ i → nameAt s j ≠ some name := by
    intro j hj ne same
    have symm : Std.Symm fun i j => nameAt s i ≠ nameAt s j := ⟨fun _ _ h => h.symm⟩
    exact order.distinct.forall hj cached ne (same.trans named.symm)
  have erased : s.head.erase i = s.head.filter fun j => j != i := nodup.erase_eq_filter i
  refine ⟨⟨?_, ?_, ?_⟩, ?_⟩
  · intro j hj
    rcases List.mem_append.mp hj with hj | hj
    · exact order.entries j (List.mem_of_mem_erase hj)
    · rw [List.mem_singleton.mp hj]
      exact ⟨name, named⟩
  · refine List.pairwise_append.mpr ⟨order.distinct.sublist List.erase_sublist,
      List.pairwise_singleton _ _, ?_⟩
    intro j hj k hk same
    rw [erased, List.mem_filter] at hj
    rw [List.mem_singleton.mp hk] at same
    exact other j hj.1 (by simpa using hj.2) (same.trans named)
  · have pos := List.length_pos_of_mem cached
    have := order.bounded
    simp only [List.length_append, List.length_erase_of_mem cached, List.length_singleton]
    omega
  · have last : [i].filterMap (nameAt s) = [name] := by simp [named]
    have before : (s.head.erase i).filterMap (nameAt s) =
        (s.head.filterMap (nameAt s)).filter (· ≠ name) := by
      rw [erased, List.filterMap_filter, List.filter_filterMap]
      apply List.filterMap_congr
      intro j hj
      by_cases same : j = i
      · subst same
        simp [named, Option.filter_some]
      · obtain ⟨found, hfound⟩ := order.entries j hj
        have ne : found ≠ name := fun eq => other j hj same (eq ▸ hfound)
        simp [same, hfound, ne, Option.filter_some]
    calc (s.head.erase i ++ [i]).filterMap (nameAt s)
        = (s.head.erase i).filterMap (nameAt s) ++ [i].filterMap (nameAt s) :=
          List.filterMap_append
      _ = touch (cachedNames s) name := by rw [last, before, touch, cachedNames]

/-- A new entry comes last, before there is too much. -/
theorem insertEntry_names (order : Ordered s) (missed : findEntry s name = none)
    (address : UInt64) (calls : CacheCalls) (objectStore : LaObjectStore)
    (result : LaStorageOpenResult) :
    let s' := insertEntry s name address calls objectStore result
    (∀ i ∈ s'.head, ∃ name, nameAt s' i = some name) ∧
      s'.head.Pairwise (fun i j => nameAt s' i ≠ nameAt s' j) ∧
      cachedNames s' = touch (cachedNames s) name := by
  intro s'
  have new : nameAt s' s.slots.length = some name := by simp [s', nameAt, insertEntry]
  have old : ∀ i ∈ s.head, nameAt s' i = nameAt s i := by
    intro i hi
    obtain ⟨found, hfound⟩ := order.entries i hi
    obtain ⟨slot, here, -⟩ := Option.map_eq_some_iff.mp hfound
    have inside : i < s.slots.length := (List.getElem?_eq_some_iff.mp here).1
    simp only [s', nameAt, insertEntry, List.getElem?_append_left inside]
  have absent := findEntry_none.mp missed
  have head : s'.head = s.head ++ [s.slots.length] := rfl
  rw [head]
  refine ⟨?_, ?_, ?_⟩
  · intro i hi
    rcases List.mem_append.mp hi with hi | hi
    · rw [old i hi]
      exact order.entries i hi
    · rw [List.mem_singleton.mp hi]
      exact ⟨name, new⟩
  · refine List.pairwise_append.mpr ⟨?_, List.pairwise_singleton _ _, ?_⟩
    · refine List.Pairwise.imp_of_mem ?_ order.distinct
      intro i j hi hj ne
      rwa [old i hi, old j hj]
    · intro i hi j hj same
      rw [old i hi, List.mem_singleton.mp hj, new] at same
      exact absent (List.mem_filterMap.mpr ⟨i, hi, same⟩)
  · rw [touch_of_notMem absent, cachedNames, head, List.filterMap_append,
      List.filterMap_congr old]
    simp [cachedNames, new]

/-- The eviction keeps the last `maxsize` names. -/
theorem evict_names (entries : ∀ i ∈ s.head, ∃ name, nameAt s i = some name)
    (distinct : s.head.Pairwise fun i j => nameAt s i ≠ nameAt s j)
    (above : s.head.length ≤ s.maxsize + 1) (done : evict s = some s') :
    Ordered s' ∧ s'.maxsize = s.maxsize ∧ cachedNames s' = (cachedNames s).rtake s.maxsize := by
  have length := length_cachedNames entries
  unfold evict at done
  split at done
  · rename_i empty
    cases done
    have short : s.head.length ≤ s.maxsize := by simp [empty]
    exact ⟨⟨entries, distinct, short⟩, rfl, (rtake_of_length_le (by omega)).symm⟩
  · rename_i oldest rest head
    split at done
    · rename_i full
      obtain ⟨slots, decref, rfl⟩ := Option.map_eq_some_iff.mp done
      have names : ∀ i, nameAt { s with slots, head := rest } i = nameAt s i :=
        fun i => cacheDecref_names decref i
      rw [head] at entries distinct above full length
      rw [List.length_cons] at above full length
      obtain ⟨first, hfirst⟩ := entries oldest List.mem_cons_self
      refine ⟨⟨?_, ?_, ?_⟩, rfl, ?_⟩
      · intro i hi
        rw [names]
        exact entries i (List.mem_cons_of_mem _ hi)
      · refine (List.Pairwise.of_cons distinct).imp ?_
        intro i j ne
        rwa [names, names]
      · show rest.length ≤ s.maxsize
        omega
      · have one : (cachedNames s).length - s.maxsize = 1 := by omega
        have all : cachedNames s = first :: rest.filterMap (nameAt s) := by
          rw [cachedNames, head, List.filterMap_cons_some hfirst]
        rw [List.rtake, one, all, List.drop_one, List.tail_cons]
        exact List.filterMap_congr fun i _ => names i
    · rename_i room
      cases done
      exact ⟨⟨entries, distinct, by omega⟩, rfl, (rtake_of_length_le (by omega)).symm⟩

/-- What `db_cache_open` does under the mutex. -/
theorem lookup_order {drivers : Drivers} {flags : OpenFlags} {calls : CacheCalls}
    {reply : CacheReply} (order : Ordered s)
    (h : lookup findEntry drivers s name flags calls = some (reply, s')) :
    (reply = .waiting ∧ Ordered s' ∧ s'.maxsize = s.maxsize ∧
      cachedNames s' = touchWithin s.maxsize (cachedNames s) name) ∨
    (reply ≠ .waiting ∧ s' = s) := by
  unfold lookup at h
  split at h
  · rename_i i found
    cases h
    obtain ⟨after, names⟩ := order.hit found flags
    refine Or.inl ⟨rfl, after, rfl, ?_⟩
    have used : name ∈ cachedNames s := by
      obtain ⟨cached, named⟩ := findEntry_some found
      exact List.mem_filterMap.mpr ⟨i, cached, named⟩
    have kept := length_touch_of_mem order.nodup used
    have bounded := order.bounded
    rw [names, touchWithin, rtake_of_length_le (by rw [kept, order.length]; exact bounded)]
  · rename_i missed
    split at h
    · cases h
      exact Or.inr ⟨by simp, rfl⟩
    · split at h
      · rename_i result asked objectStore opened
        split at h
        · cases h
        · rename_i address copied
          obtain ⟨next, pushed, eq⟩ := Option.map_eq_some_iff.mp h
          cases eq
          obtain ⟨entries, distinct, names⟩ :=
            insertEntry_names order missed address calls objectStore result
          have above : (insertEntry s name address calls objectStore result).head.length ≤
              s.maxsize + 1 := by
            have := order.bounded
            simp only [insertEntry, List.length_append, List.length_singleton]
            omega
          obtain ⟨after, maxsize, last⟩ := evict_names entries distinct above pushed
          refine Or.inl ⟨rfl, after, maxsize, ?_⟩
          rw [last, names]
          rfl
      · cases h
        exact Or.inr ⟨by simp, rfl⟩

end Lookup

section Others
variable {s s' : CacheState} {reply : CacheReply}

theorem finish_keepsNames {thread : Nat} (h : finish s thread = some (reply, s')) :
    KeepsNames s s' := by
  unfold finish at h
  split at h
  · cases h
  · rename_i open' pending
    split at h
    · cases h
    · rename_i slot here
      cases open' with
      | inserted i result =>
        dsimp only at h
        split at h
        · cases h
        · cases h
          exact ⟨rfl, rfl, fun _ => rfl⟩
      | found i flags =>
        dsimp only at h
        split at h
        · cases h
          exact ⟨rfl, rfl, fun _ => rfl⟩
        · split at h
          · cases h
          · cases h
            have at_i : s.slots[i]? = some slot := here
            exact ⟨rfl, rfl, nameAt_set at_i rfl⟩

theorem cacheClose_keepsNames {i : Nat} (h : cacheClose s i = some (reply, s')) :
    KeepsNames s s' := by
  unfold cacheClose at h
  split at h
  · split at h
    · cases h
    · rename_i slot here
      dsimp only at h
      split at h
      · cases h
      · cases h
        exact ⟨rfl, rfl, nameAt_set here rfl⟩
  · cases h

theorem cacheDelete_keepsNames {i : Nat} {deleted : Bool}
    (h : cacheDelete s i deleted = some (reply, s')) :
    KeepsNames s s' := by
  unfold cacheDelete at h
  split at h
  · split at h
    · cases h
    · rename_i slot here
      split at h
      · cases h
      · obtain ⟨asked, -, eq⟩ := Option.map_eq_some_iff.mp h
        cases eq
        exact ⟨rfl, rfl, nameAt_set here rfl⟩
  · cases h

end Others

/-- The names after a step: a call that found or added its name uses it. -/
def namesAfter (bound : Nat) (names : List CString) : Option CString → List CString
  | some name => touchWithin bound names name
  | none => names

theorem step_order (drivers : Drivers) {s : CacheState} (order : Ordered s) (r : CacheRequest) :
    Ordered (step findEntry drivers s r).2 ∧ (step findEntry drivers s r).2.maxsize = s.maxsize ∧
      cachedNames (step findEntry drivers s r).2 =
        namesAfter s.maxsize (cachedNames s) (opened (event (step findEntry drivers) s r)) := by
  have same : ∀ {reply s'}, serve findEntry drivers s r = some (reply, s') →
      opened (event (step findEntry drivers) s r) = none → KeepsNames s s' →
      Ordered s' ∧ s'.maxsize = s.maxsize ∧ cachedNames s' =
        namesAfter s.maxsize (cachedNames s) (opened (event (step findEntry drivers) s r)) := by
    intro reply s' _ nothing keeps
    rw [nothing]
    exact ⟨keeps.ordered order, keeps.maxsize, keeps.cachedNames⟩
  cases served : serve findEntry drivers s r with
  | none =>
    have stays : step findEntry drivers s r = (none, s) := by rw [step, served]
    have nothing : opened (event (step findEntry drivers) s r) = none := by
      simp only [opened, event, stays]
    rw [nothing, stays]
    exact ⟨order, rfl, rfl⟩
  | some answer =>
    obtain ⟨reply, s'⟩ := answer
    have goes : step findEntry drivers s r = (some reply, s') := by rw [step, served]
    rw [goes]
    cases r with
    | lookup name flags calls =>
      rcases lookup_order order served with ⟨rfl, after, maxsize, names⟩ | ⟨refused, rfl⟩
      · have used :
            opened (event (step findEntry drivers) s (.lookup name flags calls)) = some name := by
          simp only [opened, event, goes]
        rw [used]
        exact ⟨after, maxsize, names⟩
      · have nothing :
            opened (event (step findEntry drivers) s' (.lookup name flags calls)) = none := by
          simp only [opened, event, goes]
          cases reply with
          | waiting => exact absurd rfl refused
          | _ => rfl
        rw [nothing]
        exact ⟨order, rfl, rfl⟩
    | finish thread =>
      exact same served rfl (finish_keepsNames served)
    | close i =>
      exact same served rfl (cacheClose_keepsNames served)
    | delete i deleted =>
      exact same served rfl (cacheDelete_keepsNames served)

theorem ordered_init (maxsize : Nat) : Ordered { maxsize } := by
  constructor <;> simp

/-- The cache after the events so far. -/
structure UsedLast (maxsize : Nat) (s : CacheState)
    (past : List (Event CacheState CacheRequest (Option CacheReply))) : Prop where
  order : Ordered s
  size : s.maxsize = maxsize
  names : cachedNames s = ((past.filterMap opened).dedup).rtake maxsize

theorem UsedLast.step {maxsize : Nat} {s : CacheState}
    {past : List (Event CacheState CacheRequest (Option CacheReply))}
    (last : UsedLast maxsize s past) (drivers : Drivers) (r : CacheRequest) :
    UsedLast maxsize (step findEntry drivers s r).2
      (past ++ [event (DbCache.step findEntry drivers) s r]) := by
  obtain ⟨order, kept, names⟩ := step_order drivers last.order r
  rw [last.size] at kept names
  refine ⟨order, kept, ?_⟩
  rw [names, List.filterMap_append, last.names]
  cases used : opened (event (DbCache.step findEntry drivers) s r) with
  | none => simp [namesAfter, used]
  | some name =>
    have one : [event (DbCache.step findEntry drivers) s r].filterMap opened = [name] := by
      simp [used]
    have nodup : ((past.filterMap opened).dedup).Nodup := List.nodup_dedup _
    rw [one, dedup_concat, namesAfter, touchWithin_rtake nodup]

/-- What one step of a run does to the names. -/
structure Replaces (drivers : Drivers) (maxsize : Nat)
    (e : Event CacheState CacheRequest (Option CacheReply)) : Prop where
  distinct : (cachedNames e.after).Nodup
  bounded : (cachedNames e.after).length ≤ maxsize
  hit : ∀ name flags calls, e.input = .lookup name flags calls →
    name ∈ cachedNames e.before → opened e = some name
  added : ∀ name flags calls result asked objectStore, e.input = .lookup name flags calls →
    name ∉ cachedNames e.before → calls.entryAllocated = true →
    laDbOpen drivers name calls.db = (result, asked, some ⟨some objectStore⟩) →
    e.output.isSome = true → opened e = some name
  newest : 0 < maxsize → ∀ name, opened e = some name →
    (cachedNames e.after).getLast? = some name
  idle : opened e = none → cachedNames e.after = cachedNames e.before
  refused : ∀ name flags calls result, e.input = .lookup name flags calls →
    e.output = some (.returned result) → e.after = e.before
  oldest : ∀ name ∈ cachedNames e.before, name ∉ cachedNames e.after →
    (cachedNames e.before).head? = some name ∧ (cachedNames e.before).length = maxsize ∧
      ∃ new, opened e = some new ∧ new ∉ cachedNames e.before ∧ new ∈ cachedNames e.after

/-- A cached name is found. -/
theorem step_hit {s : CacheState} (drivers : Drivers) {name : CString}
    (cached : name ∈ cachedNames s) (flags : OpenFlags) (calls : CacheCalls) :
    opened (event (step findEntry drivers) s (.lookup name flags calls)) = some name := by
  have found : findEntry s name ≠ none := fun missed => findEntry_none.mp missed cached
  obtain ⟨i, hi⟩ := Option.ne_none_iff_exists'.mp found
  simp [opened, event, step, serve, lookup, hi]

/-- Another one is added by an open that got its memory and its database. -/
theorem step_added {s : CacheState} {drivers : Drivers} {name : CString} {flags : OpenFlags}
    {calls : CacheCalls} {result : LaStorageOpenResult} {asked : List EnvCall}
    {objectStore : LaObjectStore} (fresh : name ∉ cachedNames s)
    (allocated : calls.entryAllocated = true)
    (opens : laDbOpen drivers name calls.db = (result, asked, some ⟨some objectStore⟩))
    (answered : (step findEntry drivers s (.lookup name flags calls)).1.isSome = true) :
    opened (event (step findEntry drivers) s (.lookup name flags calls)) = some name := by
  have missed : findEntry s name = none := findEntry_none.mpr fresh
  cases served : lookup findEntry drivers s name flags calls with
  | none => simp [step, serve, served] at answered
  | some answer =>
    obtain ⟨reply, s'⟩ := answer
    obtain rfl : reply = .waiting := by
      simp only [lookup, missed, allocated, opens, Bool.not_true, Bool.false_eq_true,
        if_false] at served
      split at served
      · cases served
      · obtain ⟨next, -, eq⟩ := Option.map_eq_some_iff.mp served
        exact (congrArg Prod.fst eq).symm
    simp [opened, event, step, serve, served]

/-- An open that returns at once has changed nothing. -/
theorem step_refused {s : CacheState} (order : Ordered s) {drivers : Drivers} {name : CString}
    {flags : OpenFlags} {calls : CacheCalls} {result : LaStorageOpenResult}
    (returned : (step findEntry drivers s (.lookup name flags calls)).1 =
      some (.returned result)) :
    (step findEntry drivers s (.lookup name flags calls)).2 = s := by
  cases served : lookup findEntry drivers s name flags calls with
  | none => simp [step, serve, served]
  | some answer =>
    obtain ⟨reply, s'⟩ := answer
    have goes : step findEntry drivers s (.lookup name flags calls) = (some reply, s') := by
      simp [step, serve, served]
    rw [goes] at returned ⊢
    obtain rfl := Option.some.inj returned
    rcases lookup_order order served with ⟨waiting, _⟩ | ⟨_, same⟩
    · cases waiting
    · exact same

theorem Ordered.replaces {s : CacheState} (order : Ordered s) (drivers : Drivers)
    (r : CacheRequest) : Replaces drivers s.maxsize (event (step findEntry drivers) s r) := by
  obtain ⟨after, maxsize, names⟩ := step_order drivers order r
  have bounded : (cachedNames s).length ≤ s.maxsize := by
    rw [order.length]
    exact order.bounded
  refine ⟨after.nodup, ?_, ?_, ?_, ?_, ?_, ?_, ?_⟩
  · have short := after.bounded
    rw [maxsize] at short
    have length := after.length
    simp only [event]
    omega
  · intro name flags calls input cached
    simp only [event] at input cached
    subst input
    exact step_hit drivers cached flags calls
  · intro name flags calls result asked objectStore input fresh allocated opens answered
    simp only [event] at input fresh answered
    subst input
    exact step_added fresh allocated opens answered
  · intro pos name used
    rw [used, namesAfter] at names
    rw [show cachedNames (event (step findEntry drivers) s r).after = _ from names]
    exact getLast_touchWithin pos _ name
  · intro nothing
    rw [nothing] at names
    exact names
  · intro name flags calls result input output
    simp only [event] at input output ⊢
    subst input
    exact step_refused order output
  · intro name was gone
    have after : cachedNames (step findEntry drivers s r).2 =
      namesAfter s.maxsize (cachedNames s) (opened (event (step findEntry drivers) s r)) := names
    simp only [event] at was gone ⊢
    cases used : opened (event (step findEntry drivers) s r) with
    | none =>
      rw [used] at after
      rw [after] at gone
      exact absurd was gone
    | some new =>
      rw [used, namesAfter] at after
      rw [after] at gone
      obtain ⟨first, full, fresh⟩ := touchWithin_forgets order.nodup bounded was gone
      refine ⟨first, full, new, used, fresh, ?_⟩
      rw [after]
      have pos := List.length_pos_of_mem was
      exact mem_touchWithin_self (by omega) _ new

/-- Throughout a run the cache holds the last `maxsize` different names that were found or
added, in the order of their last use. A call that neither finds nor adds changes nothing, and
only the oldest name goes, for a new one, when the cache is full. -/
theorem cache_refines_lru (drivers : Drivers) (maxsize : Nat) (requests : List CacheRequest) :
    cachedNames (final (step findEntry drivers) { maxsize } requests) =
      (((events (step findEntry drivers) { maxsize } requests).filterMap opened).dedup).rtake
        maxsize ∧
    ∀ e ∈ events (step findEntry drivers) { maxsize } requests, Replaces drivers maxsize e := by
  have always : ∀ e ∈ events (step findEntry drivers) { maxsize } requests, True :=
    fun _ _ => trivial
  constructor
  · have start : UsedLast maxsize { maxsize } [] :=
      ⟨ordered_init maxsize, rfl, by simp [cachedNames]⟩
    have keeps : ∀ s past r, UsedLast maxsize s past → True →
        UsedLast maxsize (step findEntry drivers s r).2
          (past ++ [event (step findEntry drivers) s r]) :=
      fun s past r last _ => last.step drivers r
    exact (recorded (UsedLast maxsize) (fun _ => True) keeps start always).names
  · intro e he
    have run := invariant (fun s => Ordered s ∧ s.maxsize = maxsize)
      (fun s r inv => by
        obtain ⟨order, kept, _⟩ := step_order drivers inv.1 r
        exact ⟨order, kept.trans inv.2⟩) requests ⟨ordered_init maxsize, rfl⟩
    obtain ⟨order, kept⟩ := (run.1 e he).1
    rw [event_of_mem he, ← kept]
    exact order.replaces drivers e.input

end CacheOrder
