import Lounge.Storage.BdbBounds
import Lounge.Storage.BdbRevisions

/-!
# Failures inside the BDB write paths

The three functions of the driver that write, under every outcome of the calls they
make. They report a success without looking at what `seq->get` and `commit` returned.
-/

namespace BdbAtomicity
open ObjectStore BdbDriver BdbPut BdbBounds BdbRevisions

/-- A call of a write path. -/
inductive WriteCall where
  | put (rev : Option LaStorageRev) (obj : LaStorageObject)
  | replace (obj : LaStorageObject)
  | setRevs (key : CString) (revs : List LaStorageRev)

/-- What all three leave behind in a heap without bounds; `none` is a crash. -/
def outcome (c : BdbCalls) (s : BdbStore) : WriteCall → Option BdbSetRevsReturn
  | .put rev obj => (bdbLaStoragePut c s rev obj).map fun r => ⟨r.result, r.store, r.txnEnds⟩
  | .replace obj =>
    let r := bdbLaStorageReplace c s obj
    some ⟨r.result, r.store, r.txnEnds⟩
  | .setRevs key revs => some (bdbLaStorageSetRevs c s key revs)

/-- `seq->get` delivers a number. -/
def SeqObtained (c : BdbCalls) (s : BdbStore) : Prop := c.seqGet = true ∧ s.seqNext ≤ seqMax

/-- Whether the call stores a sequence number. -/
def WriteCall.numbers : WriteCall → Bool
  | .setRevs _ _ => false
  | _ => true

/-- The record that the call has read and goes on to replace, if it gets that far. -/
def WriteCall.replaces (c : BdbCalls) (s : BdbStore) : WriteCall → Option (List UInt8)
  | .put rev obj =>
    (s.db.lookup obj.key).filter fun value => rev = some (partialHeader c.stack value).rev
  | .replace _ => none
  | .setRevs key _ => s.db.lookup key

/-- The call gets past its reads. -/
def WriteCall.reaches (c : BdbCalls) (s : BdbStore) (call : WriteCall) : Bool :=
  c.txnBegin &&
    match call with
    | .put _ obj =>
      c.dbGet.isNone && ((s.db.lookup obj.key).isNone || (call.replaces c s).isSome)
    | .replace _ => true
    | .setRevs key _ => c.dbGet.isNone && (s.db.lookup key).isSome

/-- The object or the record can be given its new size: the allocation succeeds where one
is needed, and at the cap a put comes with a history to move. -/
def WriteCall.resizes (c : BdbCalls) (s : BdbStore) (call : WriteCall) : Bool :=
  match call, call.replaces c s with
  | .put _ obj, some value =>
    if (partialHeader c.stack value).revCount.toNat < laObjectMaxRevisionCount then c.allocated
    else obj.header.revCount.toNat ≠ 0
  | .setRevs _ revs, some value =>
    !setRevsGrows c value (revs.take laObjectMaxRevisionCount) || c.allocated
  | _, _ => true

/-- What the call moves stays in the block of its object or record. -/
def WriteCall.inside (c : BdbCalls) (s : BdbStore) (call : WriteCall) : Bool :=
  match call, call.replaces c s with
  | .put _ obj, some value => MovesInside (partialHeader c.stack value) obj
  | .setRevs key revs, some value =>
    setRevsInside c key value (revs.take laObjectMaxRevisionCount)
  | _, _ => true

/-- The call comes to a write past the end of a block. -/
def WriteCall.overruns (c : BdbCalls) (s : BdbStore) (call : WriteCall) : Bool :=
  call.reaches c s && call.resizes c s && !call.inside c s

/-- What all three leave behind. A write past the end of a block is a crash. -/
def perform (c : BdbCalls) (s : BdbStore) (call : WriteCall) : Option BdbSetRevsReturn :=
  if call.overruns c s then none else outcome c s call

/-- A return that ended its transaction once, claims no more than it did, and did
nothing where it claims nothing. -/
structure Atomic (c : BdbCalls) (s : BdbStore) (call : WriteCall) (ret : BdbSetRevsReturn) :
    Prop where
  ended : ret.txnEnds.length = if c.txnBegin then 1 else 0
  honest : ret.result = .success →
    (call.numbers = true → SeqObtained c s) ∧ c.dbPut = true ∧ ret.txnEnds = [.committed]
  unchanged : ret.result ≠ .success → ret.store.db = s.db

/-- The call returns, atomically. -/
def ReturnsAtomically (c : BdbCalls) (s : BdbStore) (call : WriteCall) : Prop :=
  ∃ ret, perform c s call = some ret ∧ Atomic c s call ret

/-- It does so if the heap has no bounds. -/
def EndsAtomically (c : BdbCalls) (s : BdbStore) (call : WriteCall) : Prop :=
  ∃ ret, outcome c s call = some ret ∧ Atomic c s call ret

/-- Past its reads, the call can resize, and if the record is put, the commit goes through and
the sequence number stored is one that was handed out. -/
def Completes (c : BdbCalls) (s : BdbStore) (call : WriteCall) : Prop :=
  call.reaches c s = true →
    call.resizes c s = true ∧
      (c.dbPut = true → c.txnCommit = true ∧ (call.numbers = true → SeqObtained c s))

/-- The condition: the call completes, and what it moves stays inside its block. -/
def Safe (c : BdbCalls) (s : BdbStore) (call : WriteCall) : Prop :=
  Completes c s call ∧ call.overruns c s = false

/-- The common end of `put` and `replace`. -/
theorem bdbWrite_atomic_iff {c : BdbCalls} (s : BdbStore) (call : WriteCall)
    (begun : c.txnBegin = true) (numbers : call.numbers = true) (obj : LaStorageObject) :
    Atomic c s call ⟨(bdbWrite c s obj).result, (bdbWrite c s obj).store,
        (bdbWrite c s obj).txnEnds⟩ ↔
      (c.dbPut = true → c.txnCommit = true ∧ SeqObtained c s) := by
  cases put : c.dbPut with
  | false =>
    refine ⟨fun _ => nofun, fun _ => ?_⟩
    constructor <;> simp [bdbWrite, put, begun]
  | true =>
    cases commit : c.txnCommit with
    | false =>
      constructor
      · intro atomic
        have := (atomic.honest (by simp [bdbWrite, put, commit])).2.2
        simp [bdbWrite, put, commit] at this
      · intro safe
        simp at safe
    | true =>
      constructor
      · intro atomic _
        exact ⟨rfl, (atomic.honest (by simp [bdbWrite, put, commit])).1 numbers⟩
      · intro safe
        refine ⟨?_, fun _ => ⟨fun _ => (safe rfl).2, put, ?_⟩, ?_⟩ <;>
          simp [bdbWrite, put, commit, begun]

/-- A call that gives up with its transaction aborted. -/
theorem atomic_abort {c : BdbCalls} {s : BdbStore} {call : WriteCall}
    (begun : c.txnBegin = true) {result : LaStorageObjectPutResult} (ne : result ≠ .success) :
    Atomic c s call ⟨result, s, [.aborted]⟩ :=
  ⟨by simp [begun], fun h => absurd h ne, fun _ => rfl⟩

/-- A call that cannot begin its transaction. -/
theorem atomic_unbegun {c : BdbCalls} {s : BdbStore} {call : WriteCall}
    (begun : c.txnBegin = false) : Atomic c s call ⟨.error, s, []⟩ :=
  ⟨by simp [begun], nofun, fun _ => rfl⟩

section Calls
variable {c : BdbCalls} {s : BdbStore} {call : WriteCall}

theorem endsAtomically_of_returned {ret : BdbSetRevsReturn}
    (returned : outcome c s call = some ret) :
    EndsAtomically c s call ↔ Atomic c s call ret := by
  constructor
  · rintro ⟨ret', hret, atomic⟩
    rw [returned] at hret
    exact Option.some.inj hret ▸ atomic
  · exact fun atomic => ⟨ret, returned, atomic⟩

/-- An early return is atomic, and the condition asks nothing of it. -/
theorem stopped_iff {ret : BdbSetRevsReturn} (returned : outcome c s call = some ret)
    (atomic : Atomic c s call ret) (stopped : call.reaches c s = false) :
    EndsAtomically c s call ↔ Completes c s call := by
  constructor
  · intro _ reaches
    rw [stopped] at reaches
    cases reaches
  · exact fun _ => (endsAtomically_of_returned returned).mpr atomic

/-- A `put` or `replace` that gets to its common end. -/
theorem reached_iff (begun : c.txnBegin = true) (numbers : call.numbers = true)
    (reaches : call.reaches c s = true) (resizes : call.resizes c s = true)
    (obj : LaStorageObject) (returned : outcome c s call = some
      ⟨(bdbWrite c s obj).result, (bdbWrite c s obj).store, (bdbWrite c s obj).txnEnds⟩) :
    EndsAtomically c s call ↔ Completes c s call := by
  rw [endsAtomically_of_returned returned, bdbWrite_atomic_iff s call begun numbers obj, Completes]
  simp [reaches, resizes, numbers]

end Calls

theorem pushRevision_isSome_resizes (c : BdbCalls) (s : BdbStore) {obj : LaStorageObject}
    {value : List UInt8} (found : s.db.lookup obj.key = some value) :
    (pushRevision c (partialHeader c.stack value) obj).isSome ↔
      (WriteCall.put (some (partialHeader c.stack value).rev) obj).resizes c s = true := by
  have replaces : (WriteCall.put (some (partialHeader c.stack value).rev) obj).replaces c s =
      some value := by simp [WriteCall.replaces, found, Option.filter]
  by_cases below : (partialHeader c.stack value).revCount.toNat < laObjectMaxRevisionCount
  · have resizes : (WriteCall.put (some (partialHeader c.stack value).rev) obj).resizes c s =
        c.allocated := by simp [WriteCall.resizes, replaces, below]
    rw [resizes]
    cases allocated : c.allocated with
    | false => simp [pushRevision, growObject, below, allocated]
    | true =>
      rw [pushRevision_isSome_iff allocated, pushedCount_succ below]
      simp
  · have resizes : (WriteCall.put (some (partialHeader c.stack value).rev) obj).resizes c s =
        decide (obj.header.revCount.toNat ≠ 0) := by
      simp [WriteCall.resizes, replaces, below]
    rw [resizes, pushRevision, growObject, if_neg below, Option.bind_some,
      insertRevision_isSome_iff]
    simp

theorem put_atomic_iff (c : BdbCalls) (s : BdbStore) (rev : Option LaStorageRev)
    (obj : LaStorageObject) :
    EndsAtomically c s (.put rev obj) ↔ Completes c s (.put rev obj) := by
  cases begun : c.txnBegin with
  | false =>
    refine stopped_iff ?_ (atomic_unbegun begun) ?_
    · simp [outcome, bdbLaStoragePut, begun]
    · simp [WriteCall.reaches, begun]
  | true =>
    cases get : c.dbGet with
    | some failure =>
      have stopped : (WriteCall.put rev obj).reaches c s = false := by
        simp [WriteCall.reaches, get]
      cases failure with
      | lockNotGranted =>
        have aborted : Atomic c s (.put rev obj) ⟨.conflict, s, [.aborted]⟩ :=
          atomic_abort begun (by decide)
        refine stopped_iff ?_ aborted stopped
        simp [outcome, bdbLaStoragePut, begun, get]
      | other =>
        have aborted : Atomic c s (.put rev obj) ⟨.error, s, [.aborted]⟩ :=
          atomic_abort begun (by decide)
        refine stopped_iff ?_ aborted stopped
        simp [outcome, bdbLaStoragePut, begun, get]
    | none =>
      cases found : s.db.lookup obj.key with
      | none =>
        refine reached_iff begun rfl ?_ ?_
          { obj with header := { obj.header with docSeq := 1, revCount := 0 } } ?_
        · simp [WriteCall.reaches, begun, get, found]
        · simp [WriteCall.resizes, WriteCall.replaces, found]
        · simp only [outcome, bdbLaStoragePut, begun, get, found, Bool.not_true, Bool.false_eq_true,
            if_false, Option.map_some]
      | some value =>
        by_cases base : rev = some (partialHeader c.stack value).rev
        · subst base
          have resizes := pushRevision_isSome_resizes c s found
          have reaches : (WriteCall.put (some (partialHeader c.stack value).rev) obj).reaches c s =
              true := by
            simp [WriteCall.reaches, WriteCall.replaces, begun, get, found]
          cases pushed : pushRevision c (partialHeader c.stack value) obj with
          | none =>
            -- The object cannot be resized, a trap.
            rw [pushed] at resizes
            constructor
            · rintro ⟨ret, hret, -⟩
              simp [outcome, bdbLaStoragePut, begun, get, found, pushed] at hret
            · intro safe
              exact absurd (resizes.mpr (safe reaches).1) (by simp)
          | some p =>
            rw [pushed] at resizes
            apply reached_iff begun rfl reaches (resizes.mp rfl) p
            simp only [outcome, bdbLaStoragePut, begun, get, found, pushed, Bool.not_true,
              Bool.false_eq_true, if_false, if_true, Option.map_some]
        · have aborted : Atomic c s (.put rev obj) ⟨.conflict, s, [.aborted]⟩ :=
            atomic_abort begun (by decide)
          refine stopped_iff ?_ aborted ?_
          · simp [outcome, bdbLaStoragePut, begun, get, found, base]
          · simp [WriteCall.reaches, WriteCall.replaces, found, base]

theorem replace_atomic_iff (c : BdbCalls) (s : BdbStore) (obj : LaStorageObject) :
    EndsAtomically c s (.replace obj) ↔ Completes c s (.replace obj) := by
  cases begun : c.txnBegin with
  | false =>
    refine stopped_iff rfl ?_ ?_
    · simpa [bdbLaStorageReplace, begun] using atomic_unbegun begun
    · simp [WriteCall.reaches, begun]
  | true =>
    refine reached_iff begun rfl ?_ rfl obj ?_
    · simp [WriteCall.reaches, begun]
    · simp [outcome, bdbLaStorageReplace, begun]

/-- Past its reads and with room for the new revisions, `set_revs` is atomic unless it puts the
record and the commit fails. -/
theorem setRevs_written_iff {c : BdbCalls} {s : BdbStore} {key : CString}
    {revs : List LaStorageRev} {value : List UInt8} (begun : c.txnBegin = true)
    (get : c.dbGet = none) (found : s.db.lookup key = some value)
    (room : (setRevsGrows c value (revs.take laObjectMaxRevisionCount) && !c.allocated) = false) :
    Atomic c s (.setRevs key revs) (bdbLaStorageSetRevs c s key revs) ↔
      (c.dbPut = true → c.txnCommit = true) := by
  cases put : c.dbPut with
  | false =>
    have returned : bdbLaStorageSetRevs c s key revs = ⟨.error, s, [.aborted]⟩ := by
      simp only [bdbLaStorageSetRevs, begun, get, found, room, put, Bool.not_true,
        Bool.not_false, Bool.false_eq_true, if_false, if_true]
    rw [returned]
    constructor
    · intro _ success
      cases success
    · exact fun _ => atomic_abort begun (by decide)
  | true =>
    cases commit : c.txnCommit with
    | false =>
      have returned : bdbLaStorageSetRevs c s key revs = ⟨.success, s, [.commitFailed]⟩ := by
        simp only [bdbLaStorageSetRevs, begun, get, found, room, put, commit, Bool.not_true,
          Bool.not_false, Bool.false_eq_true, if_false, if_true]
      rw [returned]
      constructor
      · intro atomic
        cases (atomic.honest rfl).2.2
      · intro commits
        cases commits rfl
    | true =>
      have ends : (bdbLaStorageSetRevs c s key revs).txnEnds = [.committed] ∧
          (bdbLaStorageSetRevs c s key revs).result = .success := by
        simp only [bdbLaStorageSetRevs, begun, get, found, room, put, commit, Bool.not_true,
          Bool.false_eq_true, if_false, and_self]
      constructor
      · exact fun _ _ => rfl
      · intro _
        constructor
        · simp [ends.1, begun]
        · exact fun _ => ⟨fun numbers => absurd numbers Bool.false_ne_true, put, ends.1⟩
        · exact fun refused => absurd ends.2 refused

theorem setRevs_atomic_iff (c : BdbCalls) (s : BdbStore) (key : CString)
    (revs : List LaStorageRev) :
    EndsAtomically c s (.setRevs key revs) ↔ Completes c s (.setRevs key revs) := by
  cases begun : c.txnBegin with
  | false =>
    refine stopped_iff rfl ?_ ?_
    · simpa [bdbLaStorageSetRevs, begun] using atomic_unbegun begun
    · simp [WriteCall.reaches, begun]
  | true =>
    cases get : c.dbGet with
    | some failure =>
      refine stopped_iff rfl ?_ ?_
      · cases failure with
        | lockNotGranted =>
          have returned : bdbLaStorageSetRevs c s key revs = ⟨.conflict, s, [.aborted]⟩ := by
            simp [bdbLaStorageSetRevs, begun, get]
          exact returned ▸ atomic_abort begun (by decide)
        | other =>
          have returned : bdbLaStorageSetRevs c s key revs = ⟨.error, s, [.aborted]⟩ := by
            simp [bdbLaStorageSetRevs, begun, get]
          exact returned ▸ atomic_abort begun (by decide)
      · simp [WriteCall.reaches, get]
    | none =>
      cases found : s.db.lookup key with
      | none =>
        refine stopped_iff rfl ?_ ?_
        · have returned : bdbLaStorageSetRevs c s key revs = ⟨.error, s, [.aborted]⟩ := by
            simp [bdbLaStorageSetRevs, begun, get, found]
          exact returned ▸ atomic_abort begun (by decide)
        · simp [WriteCall.reaches, found]
      | some value =>
        have reaches : (WriteCall.setRevs key revs).reaches c s = true := by
          simp [WriteCall.reaches, begun, get, found]
        have resizes : (WriteCall.setRevs key revs).resizes c s =
            !(setRevsGrows c value (revs.take laObjectMaxRevisionCount) && !c.allocated) := by
          simp [WriteCall.resizes, WriteCall.replaces, found]
        rw [endsAtomically_of_returned rfl]
        cases fails : setRevsGrows c value (revs.take laObjectMaxRevisionCount) && !c.allocated with
        | true =>
          have returned : bdbLaStorageSetRevs c s key revs = ⟨.error, s, []⟩ := by
            simp only [bdbLaStorageSetRevs, begun, get, found, fails, Bool.not_true,
              Bool.false_eq_true, if_false, if_true]
          constructor
          · intro atomic
            have := atomic.ended
            simp [returned, begun] at this
          · intro safe
            have := (safe reaches).1
            simp [resizes, fails] at this
        | false =>
          rw [setRevs_written_iff begun get found fails, Completes, resizes, fails]
          simp [reaches, WriteCall.numbers]

/-- A write path is atomic under exactly the outcomes and on exactly the stores that are safe. -/
theorem returnsAtomically_iff (c : BdbCalls) (s : BdbStore) (call : WriteCall) :
    ReturnsAtomically c s call ↔ Safe c s call := by
  have completes : EndsAtomically c s call ↔ Completes c s call := by
    cases call with
    | put rev obj => exact put_atomic_iff c s rev obj
    | replace obj => exact replace_atomic_iff c s obj
    | setRevs key revs => exact setRevs_atomic_iff c s key revs
  rw [Safe, ← completes, ReturnsAtomically, EndsAtomically, perform]
  cases call.overruns c s with
  | true => simp
  | false => simp

section FailedCommit

private def someObject : LaStorageObject :=
  ⟨.ofBytes [97], ⟨0, 0, false, 0, uniformRev 1⟩, fun _ => 0, 0, 0⟩

/-- A put of a new document whose commit fails reports a success and stores nothing. -/
theorem failed_commit_reported_success :
    (bdbLaStoragePut { txnCommit := false } bdbEmpty none someObject).map
        (fun r => (r.result, r.txnEnds, r.store.db.entries)) =
      some (.success, [.commitFailed], []) ∧
    ¬ReturnsAtomically { txnCommit := false } bdbEmpty (.put none someObject) := by
  constructor
  · decide +kernel
  · rintro ⟨ret, hret, atomic⟩
    cases hret
    exact absurd (atomic.honest rfl).2.2 nofun

end FailedCommit

end BdbAtomicity
