import Lounge.Storage.BdbPut

/-!
# Chains of puts on one key

Each put of a chain brings a fresh object without history and names the revision
of the put before it, as `do_la_db_put` does. The driver keeps one revision of
history: what it moves to make room for more was never part of the new object.
-/

namespace BdbChains
open FlatMemory ObjectStore BdbDriver BdbRecord BdbPut

/-- A revision and the document it is for. -/
structure Version where
  rev : LaStorageRev
  data : List UInt8

/-- What the environment contributes: each put's calls, and the memory behind each object. -/
structure ChainEnv where
  calls : Nat → BdbCalls
  block : Nat → Memory

/-- `la_storage_create_object(key, rev, data, length, NULL, 0)`. -/
def plainObject (block : Memory) (key : CString) (v : Version) : Option LaStorageObject :=
  (laStorageCreateObject true block key v.rev v.data (UInt32.ofNat v.data.length) none 0).join

/-- The put of one version. It counts as successful when it says so and its transaction
was committed. -/
def putVersion (env : ChainEnv) (key : CString) (i : Nat) (s : BdbStore)
    (base : Option LaStorageRev) (v : Version) : Option BdbStore :=
  match plainObject (env.block i) key v with
  | none => none
  | some obj =>
    match bdbLaStoragePut (env.calls i) s base obj with
    | none => none
    | some ret =>
      if ret.result = .success ∧ ret.txnEnds = [.committed] then some ret.store else none

/-- A chain of successful puts, the `i`-th and later ones. -/
def putChain (env : ChainEnv) (key : CString) :
    Nat → BdbStore → Option LaStorageRev → List Version → Option BdbStore
  | _, s, _, [] => some s
  | i, s, base, v :: rest =>
    match putVersion env key i s base v with
    | none => none
    | some s' => putChain env key (i + 1) s' (some v.rev) rest

/-- Every record of the chain fits a DBT. -/
def Fits (i : Nat) (vs : List Version) : Prop :=
  ∀ j (h : j < vs.length),
    headerSize + 16 * min (i + j) laObjectMaxRevisionCount + vs[j].data.length < 2 ^ 32

instance (i : Nat) (vs : List Version) : Decidable (Fits i vs) :=
  inferInstanceAs (Decidable (∀ j (h : j < vs.length),
    headerSize + 16 * min (i + j) laObjectMaxRevisionCount + vs[j].data.length < 2 ^ 32))

theorem Fits.tail {i : Nat} {v : Version} {rest : List Version} (fits : Fits i (v :: rest)) :
    Fits (i + 1) rest := by
  intro j h
  have := fits (j + 1) (by simpa using h)
  simpa [Nat.add_assoc, Nat.add_comm 1] using this

theorem Fits.init {i : Nat} {vs : List Version} {v : Version} (fits : Fits i (vs ++ [v])) :
    Fits i vs := by
  intro j h
  have := fits j (by rw [List.length_append]; omega)
  rwa [List.getElem_append_left h] at this

/-- What the driver reports for `key` is the last version, with all before it as history,
newest first and cut at the cap. -/
def Reports (s : BdbStore) (key : CString) (before : List Version) (last : Version) : Prop :=
  ∀ c : BdbCalls, c.Succeed →
    (∃ o, bdbLaStorageGet c s key none true = (.ok, some o) ∧ o.header.rev = last.rev ∧
      o.laStorageObjectGetData = last.data) ∧
    (bdbLaStorageGetAllRevs c s key).revs =
      some ((before.reverse.map Version.rev).take laObjectMaxRevisionCount)

/-- The promise of a chain: whatever the store, the environment and the base the first put
names, the driver reports the chain. -/
def ChainHolds (before : List Version) (last : Version) : Prop :=
  ∀ (env : ChainEnv) (key : CString) (s s' : BdbStore) (base : Option LaStorageRev),
    s.db.lookup key = none → putChain env key 0 s base (before ++ [last]) = some s' →
    Reports s' key before last

theorem plainObject_spec (block : Memory) (key : CString) {v : Version}
    (fits : v.data.length < 2 ^ 32) :
    ∃ obj, plainObject block key v = some obj ∧ obj.key = key ∧
      obj.header = ⟨0, 0, false, 0, v.rev⟩ ∧ LaidOut obj [] v.data ∧
      obj.alloc = v.data.length := by
  obtain ⟨obj, hobj⟩ : ∃ obj, plainObject block key v = some obj := ⟨_, rfl⟩
  exact ⟨obj, hobj, createObject_plain fits (Option.join_eq_some_iff.mp hobj)⟩

/-- The record of the last of `count + 1` puts. -/
structure StoredAs (s : BdbStore) (key : CString) (rev : LaStorageRev) (count : Nat) : Prop where
  record : ∃ d : DocRecord, s.db.lookup key = some d.bytes ∧ d.header.rev = rev ∧
    d.header.revCount.toNat = count

/-- A committed put stored what it prepared. -/
theorem putVersion_cases {env : ChainEnv} {key : CString} {i : Nat} {s s' : BdbStore}
    {base : Option LaStorageRev} {v : Version} (fits : v.data.length < 2 ^ 32)
    (h : putVersion env key i s base v = some s') :
    ∃ obj o, obj.key = key ∧ obj.header = ⟨0, 0, false, 0, v.rev⟩ ∧ LaidOut obj [] v.data ∧
      obj.alloc = v.data.length ∧ Prepared (env.calls i) s base obj o ∧
      s' = written (env.calls i) s o := by
  obtain ⟨obj, hplain, hkey, hheader, hlaid, halloc⟩ := plainObject_spec (env.block i) key fits
  simp only [putVersion, hplain] at h
  split at h
  · cases h
  · rename_i ret hret
    split at h
    · rename_i hok
      obtain rfl := Option.some.inj h
      rcases bdbLaStoragePut_cases hret with unstored | ⟨o, hprep, stored⟩
      · exact absurd hok.2 unstored.ends
      · exact ⟨obj, o, hkey, hheader, hlaid, halloc, hprep, stored.store⟩
    · cases h

theorem written_lookup (c : BdbCalls) (s : BdbStore) {o : LaStorageObject}
    (fits : o.laStorageObjectTotalSize < 2 ^ 32) :
    (written c s o).db.lookup o.key = some (recordOf (numbered c s o) fits).bytes := by
  rw [written, AList.lookup_insert, recordBytes_recordOf (numbered c s o) fits]

/-- The size and the count of what a put onto `count` revisions prepares. -/
theorem prepared_updated {c : BdbCalls} {s : BdbStore} {base : Option LaStorageRev}
    {obj o : LaStorageObject} {v : Version} {rev : LaStorageRev} {count : Nat}
    (hheader : obj.header = ⟨0, 0, false, 0, v.rev⟩) (hlaid : LaidOut obj [] v.data)
    (stored : StoredAs s obj.key rev count) (prep : Prepared c s base obj o) :
    count < laObjectMaxRevisionCount ∧
    ∃ header : LaStorageObjectHeader, header.rev = rev ∧ header.revCount.toNat = count ∧
      pushRevision c header obj = some o ∧ o.header.revCount.toNat = count + 1 ∧
      o.header.rev = v.rev ∧
      o.laStorageObjectTotalSize = headerSize + 16 * (count + 1) + v.data.length := by
  obtain ⟨d, hd, hrev, hcount⟩ := stored.record
  cases prep with
  | created absent =>
    rw [hd] at absent
    cases absent
  | updated value found _ _ pushed =>
    rw [hd] at found
    obtain rfl := Option.some.inj found
    rw [partialHeader_docRecord] at pushed
    obtain ⟨hn, _, hh, hl, _⟩ := pushRevision_cases pushed
    -- At the cap the new object keeps its own count, which is zero.
    have below : d.header.revCount.toNat < laObjectMaxRevisionCount := by
      by_contra hge
      rw [pushedCount, if_neg hge, hheader] at hn
      exact hn rfl
    have hsucc := pushedCount_succ below obj
    refine ⟨hcount ▸ below, d.header, hrev, hcount, pushed, ?_, ?_, ?_⟩
    · rw [hh, pushedHeader_revCount, hsucc, hcount]
    · rw [hh, pushedHeader_rev, hheader]
    · rw [LaStorageObject.laStorageObjectTotalSize, hh, pushedHeader_revCount, hsucc, hcount, hl,
        hlaid.length]

/-- One more put: only below the cap, and then the count goes up by one. -/
theorem putVersion_stored {env : ChainEnv} {key : CString} {i : Nat} {s s' : BdbStore}
    {base : Option LaStorageRev} {v : Version} {rev : LaStorageRev} {count : Nat}
    (fits : headerSize + 16 * min (count + 1) laObjectMaxRevisionCount + v.data.length < 2 ^ 32)
    (stored : StoredAs s key rev count) (h : putVersion env key i s base v = some s') :
    count < laObjectMaxRevisionCount ∧ StoredAs s' key v.rev (count + 1) := by
  obtain ⟨obj, o, hkey, hheader, hlaid, _, prep, rfl⟩ := putVersion_cases (by omega) h
  obtain ⟨below, header, _, _, _, hc, hr, hsize⟩ :=
    prepared_updated hheader hlaid (hkey ▸ stored) prep
  have hfits : o.laStorageObjectTotalSize < 2 ^ 32 := by
    rw [hsize]
    omega
  have hokey : o.key = key := prep.key.trans hkey
  refine ⟨below, ⟨_, hokey ▸ written_lookup (env.calls i) s hfits, hr, hc⟩⟩

theorem putVersion_first {env : ChainEnv} {key : CString} {i : Nat} {s s' : BdbStore}
    {base : Option LaStorageRev} {v : Version} (absent : s.db.lookup key = none)
    (fits : headerSize + v.data.length < 2 ^ 32)
    (h : putVersion env key i s base v = some s') :
    ∃ d : DocRecord, s'.db.lookup key = some d.bytes ∧ d.header.rev = v.rev ∧
      d.history = [] ∧ d.body = v.data := by
  obtain ⟨obj, o, rfl, hheader, hlaid, _, prep, rfl⟩ := putVersion_cases (by omega) h
  have hcontent : read obj.revsData 0 v.data.length = v.data := by
    simpa [revBytes] using hlaid.content
  cases prep with
  | updated value found =>
    rw [absent] at found
    cases found
  | created _ =>
    refine ⟨_, written_lookup (env.calls i) s ?_, ?_, rfl, ?_⟩
    · simpa [LaStorageObject.laStorageObjectTotalSize, hlaid.length] using fits
    · simp [recordOf, numbered, hheader]
    · simp [recordOf, numbered, LaStorageObject.laStorageObjectGetData,
        LaStorageObject.dataOffset, hlaid.length, hcontent]

/-- The second put still stores its document and the one revision behind it. -/
theorem putVersion_second {env : ChainEnv} {key : CString} {i : Nat} {s s' : BdbStore}
    {base : Option LaStorageRev} {v : Version} {rev : LaStorageRev}
    (stored : StoredAs s key rev 0) (fits : headerSize + 16 + v.data.length < 2 ^ 32)
    (h : putVersion env key i s base v = some s') :
    ∃ d : DocRecord, s'.db.lookup key = some d.bytes ∧ d.header.rev = v.rev ∧
      d.history = [rev] ∧ d.body = v.data := by
  obtain ⟨obj, o, rfl, hheader, hlaid, halloc, prep, rfl⟩ := putVersion_cases (by omega) h
  obtain ⟨_, header, hrev, hcount, pushed, hc, hr, hsize⟩ :=
    prepared_updated hheader hlaid stored prep
  have hfits : o.laStorageObjectTotalSize < 2 ^ 32 := by omega
  have laid := pushRevision_laidOut pushed hcount hlaid (by omega)
  rw [hrev] at laid
  obtain ⟨hhistory, hbody⟩ := laid.parts
  exact ⟨_, prep.key ▸ written_lookup (env.calls i) s hfits, hr, hhistory, hbody⟩

/-- Onto a history of one revision or more, the last byte of the new document is read from
behind the caller's object. -/
theorem pushRevision_lastByte {c : BdbCalls} {header : LaStorageObjectHeader}
    {obj p : LaStorageObject} (pushed : pushRevision c header obj = some p)
    (below : header.revCount.toNat < laObjectMaxRevisionCount) (some_ : 1 ≤ header.revCount.toNat)
    (plain : obj.header.revCount.toNat = 0) (owned : obj.alloc = obj.dataLength.toNat)
    (nonempty : 0 < obj.dataLength.toNat) :
    p.revsData (16 * p.header.revCount.toNat + (obj.dataLength.toNat - 1)) =
      c.heap (16 * p.header.revCount.toNat + (obj.dataLength.toNat - 1)) := by
  obtain ⟨_, _, hh, _, hm⟩ := pushRevision_cases pushed
  have hcount := pushedCount_succ below obj
  have hoff : obj.dataOffset = 0 := by simp [LaStorageObject.dataOffset, plain]
  rw [hh, pushedHeader_revCount, hm, store_outside (by rw [header.rev.length_eq]; omega),
    shiftSize_pos (by omega), move_outside (by omega), grownData, if_pos below,
    move_outside (by omega), regrow_of_ge (by omega)]

/-- The second revision of the history comes from there when the document is empty. -/
theorem pushRevision_secondRev {c : BdbCalls} {header : LaStorageObjectHeader}
    {obj p : LaStorageObject} (pushed : pushRevision c header obj = some p)
    (below : header.revCount.toNat < laObjectMaxRevisionCount) (some_ : 1 ≤ header.revCount.toNat)
    (owned : obj.alloc = 0) (empty : obj.dataLength.toNat = 0) (j : Nat) (hj : j < 16) :
    p.revsData (16 + j) = c.heap j := by
  obtain ⟨_, _, _, _, hm⟩ := pushRevision_cases pushed
  have hcount := pushedCount_succ below obj
  have hmove : move (grownData c header obj) 16 0 (shiftSize (pushedCount header obj)) (16 + j) =
      grownData c header obj (0 + j) :=
    move_inside _ 16 0 (by rw [shiftSize_pos (by omega)]; omega)
  rw [hm, store_outside (by rw [header.rev.length_eq]; omega), hmove, grownData, if_pos below,
    move_outside (by omega), regrow_of_ge (by omega), Nat.zero_add]

/-- A prepared object is stored when no call fails. -/
theorem putVersion_prepared {env : ChainEnv} {i : Nat} (ok : (env.calls i).Succeed)
    {s : BdbStore} {base : Option LaStorageRev} {v : Version} {obj o : LaStorageObject}
    {key : CString} (plain : plainObject (env.block i) key v = some obj)
    (prep : Prepared (env.calls i) s base obj o) :
    putVersion env key i s base v = some (written (env.calls i) s o) := by
  simp [putVersion, plain, bdbLaStoragePut_prepared ok prep]

theorem putVersion_absent_succeeds {env : ChainEnv} {i : Nat} (ok : (env.calls i).Succeed)
    {key : CString} {s : BdbStore} (base : Option LaStorageRev) {v : Version}
    (fits : v.data.length < 2 ^ 32) (absent : s.db.lookup key = none) :
    ∃ s', putVersion env key i s base v = some s' := by
  obtain ⟨obj, plain, rfl, _⟩ := plainObject_spec (env.block i) key fits
  exact ⟨_, putVersion_prepared ok plain (.created absent)⟩

theorem putVersion_stored_succeeds {env : ChainEnv} {i : Nat} (ok : (env.calls i).Succeed)
    {key : CString} {s : BdbStore} {rev : LaStorageRev} {count : Nat} {v : Version}
    (fits : v.data.length < 2 ^ 32) (stored : StoredAs s key rev count)
    (below : count < laObjectMaxRevisionCount) :
    ∃ s', putVersion env key i s (some rev) v = some s' := by
  obtain ⟨obj, plain, rfl, _⟩ := plainObject_spec (env.block i) key fits
  obtain ⟨d, hd, hrev, hcount⟩ := stored.record
  have hsucc := pushedCount_succ (hcount ▸ below) obj
  obtain ⟨o, ho⟩ := Option.isSome_iff_exists.mp
    ((pushRevision_isSome_iff ok.allocated d.header obj).mpr (by omega))
  have hread := partialHeader_docRecord d (env.calls i).stack
  exact ⟨_, putVersion_prepared ok plain
    (.updated d.bytes hd (by rw [hread, hrev]) o (by rw [hread, ho]))⟩

/-- With `b` in the memory behind it, a put onto history shows `b` where the last byte of its
document or, with no document, its second revision should be. -/
theorem putVersion_junk {env : ChainEnv} {i : Nat} {b : UInt8}
    (junk : (env.calls i).heap = fun _ => b) {key : CString} {s s' : BdbStore}
    {base : Option LaStorageRev} {rev : LaStorageRev} {count : Nat} {v : Version}
    (fits : headerSize + 16 * (count + 1) + v.data.length < 2 ^ 32)
    (stored : StoredAs s key rev count) (some_ : 1 ≤ count)
    (h : putVersion env key i s base v = some s') :
    ∃ d : DocRecord, s'.db.lookup key = some d.bytes ∧ d.history.length = count + 1 ∧
      (v.data ≠ [] → d.body.getLast? = some b) ∧
      (v.data = [] → d.history[1]? = some (uniformRev b)) := by
  obtain ⟨obj, o, rfl, hheader, hlaid, halloc, prep, rfl⟩ := putVersion_cases (by omega) h
  obtain ⟨below, header, hrev, hcount, pushed, hc, hr, hsize⟩ :=
    prepared_updated hheader hlaid stored prep
  have hfits : o.laStorageObjectTotalSize < 2 ^ 32 := hsize ▸ fits
  obtain ⟨_, _, _, hl, _⟩ := pushRevision_cases pushed
  have hlen : obj.dataLength.toNat = v.data.length := hlaid.length
  refine ⟨_, prep.key ▸ written_lookup (env.calls i) s hfits, ?_, fun hne => ?_, fun he => ?_⟩
  · simp [recordOf, numbered, hc]
  · have hpos : 0 < v.data.length := List.length_pos_iff.mpr hne
    have hlast := pushRevision_lastByte pushed (by omega) (by omega) hlaid.counted (by omega)
      (by omega)
    rw [junk, hlen, hc] at hlast
    rw [List.getLast?_eq_getElem?]
    have hbody : (recordOf (numbered (env.calls i) s o) hfits).body =
        read o.revsData (16 * (count + 1)) v.data.length := by
      simp [recordOf, numbered, LaStorageObject.laStorageObjectGetData,
        LaStorageObject.dataOffset, hc, hl, hlen]
    rw [hbody, length_read, List.getElem?_eq_getElem (by rw [length_read]; omega), getElem_read,
      hlast]
  · have hzero : obj.dataLength.toNat = 0 := by simp [hlen, he]
    have hsecond : revAt o.revsData 16 = uniformRev b := by
      apply revAt_eq
      apply List.ext_getElem
      · simp [uniformRev]
      · intro j hj _
        rw [getElem_read, pushRevision_secondRev pushed (by omega) (by omega) (by simp [halloc, he])
          hzero j (by simpa using hj), junk]
        simp only [uniformRev, List.getElem_replicate]
    have hhistory : (recordOf (numbered (env.calls i) s o) hfits).history =
        revsAt o.revsData 0 (count + 1) := by
      simp [recordOf, numbered, hc]
    obtain ⟨m, rfl⟩ : ∃ m, count = m + 1 := ⟨count - 1, by omega⟩
    rw [hhistory, revsAt_succ, revsAt_succ, List.getElem?_cons_succ, List.getElem?_cons_zero,
      hsecond]

/-- The revision that a put after `vs` names. -/
def lastRev (rev : LaStorageRev) (vs : List Version) : LaStorageRev :=
  vs.foldl (fun _ v => v.rev) rev

section Chain
variable {env : ChainEnv} {key : CString}

theorem putChain_append (i : Nat) (s : BdbStore) (rev : LaStorageRev) (vs : List Version)
    (v : Version) :
    putChain env key i s (some rev) (vs ++ [v]) =
      (putChain env key i s (some rev) vs).bind fun s' =>
        putVersion env key (i + vs.length) s' (some (lastRev rev vs)) v := by
  induction vs generalizing i s rev with
  | nil => cases h : putVersion env key i s (some rev) v <;> simp [putChain, lastRev, h]
  | cons w rest ih =>
    simp only [List.cons_append, putChain]
    cases h : putVersion env key i s (some rev) w with
    | none => rfl
    | some s' =>
      have hindex : i + 1 + rest.length = i + (w :: rest).length := by
        rw [List.length_cons]
        omega
      simp only [ih, hindex, lastRev, List.foldl_cons]

/-- The store after a chain that goes on from a stored record. -/
theorem putChain_stored {vs : List Version} {i count : Nat} {s s' : BdbStore}
    {rev : LaStorageRev} (fits : Fits (count + 1) vs) (stored : StoredAs s key rev count)
    (cap : count ≤ laObjectMaxRevisionCount) (h : putChain env key i s (some rev) vs = some s') :
    count + vs.length ≤ laObjectMaxRevisionCount ∧
      StoredAs s' key (lastRev rev vs) (count + vs.length) := by
  induction vs generalizing i count s rev with
  | nil =>
    obtain rfl := Option.some.inj h
    exact ⟨cap, stored⟩
  | cons v rest ih =>
    simp only [putChain] at h
    cases hv : putVersion env key i s (some rev) v with
    | none => simp [hv] at h
    | some t =>
      rw [hv] at h
      obtain ⟨below, hstored⟩ := putVersion_stored (fits 0 (by simp)) stored hv
      have hlen : count + (v :: rest).length = count + 1 + rest.length := by
        rw [List.length_cons]
        omega
      rw [hlen]
      exact ih fits.tail hstored below h

/-- Up to the cap a chain goes through when no call fails. -/
theorem putChain_succeeds {vs : List Version} {i count : Nat} {s : BdbStore}
    {rev : LaStorageRev} (ok : ∀ j, (env.calls j).Succeed) (fits : Fits (count + 1) vs)
    (stored : StoredAs s key rev count) (cap : count + vs.length ≤ laObjectMaxRevisionCount) :
    ∃ s', putChain env key i s (some rev) vs = some s' := by
  induction vs generalizing i count s rev with
  | nil => exact ⟨s, rfl⟩
  | cons v rest ih =>
    rw [List.length_cons] at cap
    have hsize : headerSize + 16 * min (count + 1) laObjectMaxRevisionCount + v.data.length <
        2 ^ 32 := fits 0 (by simp)
    obtain ⟨t, ht⟩ := putVersion_stored_succeeds (v := v) (ok i) (by omega) stored
      (by omega)
    obtain ⟨_, hstored⟩ := putVersion_stored hsize stored ht
    simp only [putChain, ht]
    exact ih fits.tail hstored (by omega)

end Chain

section Reports
variable {s : BdbStore} {key : CString} {before : List Version} {last : Version} {d : DocRecord}

theorem get_record (found : s.db.lookup key = some d.bytes) {c : BdbCalls} (ok : c.Succeed) :
    bdbLaStorageGet c s key none true = (.ok, some (objectOfValue c.heap key d.bytes)) := by
  simp [bdbLaStorageGet, ok.dbGet, found]

theorem reports_of_record (found : s.db.lookup key = some d.bytes)
    (rev : d.header.rev = last.rev) (cap : d.history.length ≤ laObjectMaxRevisionCount)
    (body : d.body = last.data)
    (history : d.history = (before.reverse.map Version.rev).take laObjectMaxRevisionCount) :
    Reports s key before last := by
  intro c ok
  obtain ⟨_, hheader, _, hdata, _⟩ := objectOfValue_docRecord d c.heap key
  refine ⟨⟨_, get_record found ok, by rw [hheader, rev], by rw [hdata, body]⟩, ?_⟩
  rw [getAllRevs_docRecord d c ok found cap, history]

theorem Reports.record (h : Reports s key before last) (found : s.db.lookup key = some d.bytes)
    (cap : d.history.length ≤ laObjectMaxRevisionCount) :
    d.body = last.data ∧
      d.history = (before.reverse.map Version.rev).take laObjectMaxRevisionCount := by
  have ok : ({} : BdbCalls).Succeed := by constructor <;> rfl
  obtain ⟨⟨o, ho, _, hdata⟩, hrevs⟩ := h {} ok
  rw [get_record found ok, Prod.mk.injEq, Option.some.injEq] at ho
  rw [getAllRevs_docRecord d _ ok found cap] at hrevs
  obtain ⟨_, _, _, hbody, _⟩ := objectOfValue_docRecord d ({} : BdbCalls).heap key
  rw [← hbody, ho.2, hdata]
  exact ⟨rfl, Option.some.inj hrevs⟩

end Reports

/-- The first put of a chain makes a record of one revision. -/
theorem putVersion_first_stored {env : ChainEnv} {key : CString} {i : Nat} {s s' : BdbStore}
    {base : Option LaStorageRev} {v : Version} (absent : s.db.lookup key = none)
    (fits : headerSize + v.data.length < 2 ^ 32)
    (h : putVersion env key i s base v = some s') : StoredAs s' key v.rev 0 := by
  obtain ⟨d, hd, hrev, hhistory, _⟩ := putVersion_first absent fits h
  exact ⟨d, hd, hrev, by rw [d.counted, hhistory, List.length_nil]⟩

/-- With one version or two, the driver reports the chain. -/
theorem short_chain_holds {before : List Version} {last : Version}
    (fits : Fits 0 (before ++ [last])) (short : before.length ≤ 1) : ChainHolds before last := by
  intro env key s s' base absent h
  rcases before with _ | ⟨w, _ | ⟨_, _⟩⟩
  · simp only [List.nil_append, putChain] at h
    cases hv : putVersion env key 0 s base last with
    | none => simp [hv] at h
    | some t =>
      rw [hv] at h
      obtain rfl := Option.some.inj h
      obtain ⟨d, hd, hrev, hhistory, hbody⟩ :=
        putVersion_first absent (by simpa [headerSize] using fits 0 (by simp)) hv
      exact reports_of_record hd hrev (by simp [hhistory]) hbody (by simp [hhistory])
  · simp only [List.cons_append, List.nil_append, putChain] at h
    cases hw : putVersion env key 0 s base w with
    | none => simp [hw] at h
    | some t =>
      rw [hw] at h
      simp only at h
      have hstored := putVersion_first_stored absent
        (by simpa [headerSize] using fits 0 (by simp)) hw
      cases hv : putVersion env key (0 + 1) t (some w.rev) last with
      | none => simp [hv] at h
      | some u =>
        rw [hv] at h
        obtain rfl := Option.some.inj h
        obtain ⟨d, hd, hrev, hhistory, hbody⟩ := putVersion_second hstored
          (by simpa [headerSize, laObjectMaxRevisionCount] using fits 1 (by simp)) hv
        exact reports_of_record hd hrev (by simp [hhistory, laObjectMaxRevisionCount]) hbody
          (by simp [hhistory, laObjectMaxRevisionCount])
  · simp at short

/-- Beyond the cap there is no chain of successful puts: the last one moves `(size_t) -16`
bytes. -/
theorem long_chain_fails {before : List Version} {last : Version}
    (fits : Fits 0 (before ++ [last])) (long : laObjectMaxRevisionCount + 1 ≤ before.length) :
    ChainHolds before last := by
  intro env key s s' base absent h
  rcases before with _ | ⟨w, mid⟩
  · simp at long
  simp only [List.cons_append, putChain] at h
  cases hw : putVersion env key 0 s base w with
  | none => simp [hw] at h
  | some t =>
    rw [hw] at h
    have hstored := putVersion_first_stored absent
      (by simpa [headerSize] using fits 0 (by simp)) hw
    obtain ⟨hcap, _⟩ := putChain_stored fits.tail hstored (Nat.zero_le _) h
    have hlen : (mid.append [last]).length = mid.length + 1 := by simp
    rw [List.length_cons] at long
    omega

theorem exists_other (x : UInt8) : ∃ b : UInt8, b ≠ x := by
  by_cases h : x = 0
  · exact ⟨1, by simp [h]⟩
  · exact ⟨0, Ne.symm h⟩

/-- From the third version on, some memory behind the new object breaks the chain. -/
theorem middle_chain_breaks {before : List Version} {last : Version}
    (fits : Fits 0 (before ++ [last])) (two : 2 ≤ before.length)
    (cap : before.length ≤ laObjectMaxRevisionCount) : ¬ ChainHolds before last := by
  intro holds
  rcases before with _ | ⟨w, mid⟩
  · simp at two
  rw [List.length_cons] at two cap
  -- The second revision the history should show, and a byte to keep it from showing.
  obtain ⟨second, hsecond⟩ : ∃ r, (((w :: mid).reverse.map Version.rev).take
      laObjectMaxRevisionCount)[1]? = some r := by
    refine ⟨_, List.getElem?_eq_getElem ?_⟩
    simp [laObjectMaxRevisionCount] at two ⊢
    omega
  obtain ⟨b, hb⟩ := exists_other (last.data.getLast?.getD (second.rev.headD 0))
  let env : ChainEnv := ⟨fun _ => { heap := fun _ => b }, fun _ _ => 0⟩
  have ok : ∀ j, (env.calls j).Succeed := fun j => by constructor <;> rfl
  let key := CString.ofBytes [97]
  have habsent : bdbEmpty.db.lookup key = none := rfl
  have hw : headerSize + w.data.length < 2 ^ 32 := by
    simpa [headerSize] using fits 0 (by simp)
  have hlast : headerSize + 16 * (mid.length + 1) + last.data.length < 2 ^ 32 := by
    have := fits (mid.length + 1) (by simp)
    simp only [Nat.zero_add, List.cons_append, List.getElem_cons_succ,
      List.getElem_concat_length] at this
    omega
  -- The chain up to the last put goes through and counts its history.
  obtain ⟨t, ht⟩ := putVersion_absent_succeeds (v := w) (ok 0) none (by omega) habsent
  have htstored := putVersion_first_stored habsent hw ht
  obtain ⟨u, hu⟩ := putChain_succeeds (i := 0 + 1) ok fits.tail.init htstored (by omega)
  obtain ⟨_, hustored⟩ := putChain_stored fits.tail.init htstored (Nat.zero_le _) hu
  rw [Nat.zero_add] at hustored
  obtain ⟨s', hs'⟩ := putVersion_stored_succeeds (v := last) (ok (0 + 1 + mid.length)) (by omega)
    hustored (by omega)
  have hchain : putChain env key 0 bdbEmpty none (w :: mid ++ [last]) = some s' := by
    simp only [List.cons_append, putChain, ht, putChain_append, hu, Option.bind_some, hs']
  obtain ⟨d, hd, hlen, hdata, hnodata⟩ := putVersion_junk rfl hlast hustored (by omega) hs'
  obtain ⟨hbody, hhistory⟩ :=
    (holds env key bdbEmpty s' none habsent hchain).record hd (by omega)
  rw [hbody] at hdata
  rw [hhistory, hsecond] at hnodata
  by_cases hempty : last.data = []
  · have hjunk : second = uniformRev b := Option.some.inj (hnodata hempty)
    rw [hempty, hjunk] at hb
    exact hb rfl
  · rw [hdata hempty] at hb
    exact hb rfl

/-- A chain of puts is reported as promised exactly up to its second version, and where it
cannot happen because it is longer than the cap allows. -/
theorem put_chain_iff {before : List Version} {last : Version}
    (fits : Fits 0 (before ++ [last])) :
    ChainHolds before last ↔
      (before ++ [last]).length ≤ 2 ∨ laObjectMaxRevisionCount + 2 ≤ (before ++ [last]).length := by
  rw [List.length_append, List.length_singleton]
  constructor
  · intro holds
    by_contra hmid
    exact middle_chain_breaks fits (by omega) (by omega) holds
  · rintro (short | long)
    · exact short_chain_holds fits (by omega)
    · exact long_chain_fails fits (by omega)

/-- Version number `n`, with a document of one byte. -/
private def numberedVersion (n : UInt8) : Version := ⟨uniformRev n, [n]⟩

/-- The second put names the first one's revision, which becomes its history. -/
theorem two_versions_reported : ChainHolds [numberedVersion 1] (numberedVersion 2) :=
  (put_chain_iff (by decide)).mpr (Or.inl (by decide))

/-- The third put of a chain stores a document byte that is not its own. -/
theorem third_version_lost :
    ¬ ChainHolds [numberedVersion 1, numberedVersion 2] (numberedVersion 3) := by
  intro holds
  let env : ChainEnv := ⟨fun _ => {}, fun _ _ => 0⟩
  let key := CString.ofBytes [97]
  have run : (putChain env key 0 bdbEmpty none
      ([numberedVersion 1, numberedVersion 2] ++ [numberedVersion 3])).map (fun s =>
        (bdbLaStorageGet {} s key none true).2.map LaStorageObject.laStorageObjectGetData) =
      some (some [0]) := by decide +kernel
  obtain ⟨s', hs', hget⟩ := Option.map_eq_some_iff.mp run
  obtain ⟨⟨o, ho, _, hdata⟩, _⟩ :=
    holds env key bdbEmpty s' none rfl hs' {} (by constructor <;> rfl)
  rw [ho, Option.map_some, hdata] at hget
  simp [numberedVersion] at hget

end BdbChains
