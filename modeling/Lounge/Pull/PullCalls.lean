import Lounge.Lib.IdleRuns
import Lounge.Pull.PullDecision

/-!
# The calls of one change

Handling a change makes calls about one key, and a write is the last of them. What they read
is decided by the record of that key.
-/

namespace PullCalls
open ObjectStore CodecValue CouchRevgen RevScan LoungeApi ApiWrites BdbDriver BdbPut BdbApi
  RevsOverlap Process IdleRuns PullModel
open PullDecision (isWrite)

def callKey : PullCall → CString
  | .get _ key => key
  | .getAllrevs _ key => key
  | .resolve key .. => key
  | .replace _ _ key .. => key
  | .put _ _ key .. => key

/-- The call is about `key`. A version is written under the announced revision, and where the
local revision was found behind, it is among the ids. -/
def MadeFor (key : CString) (thatrev : LaRev) (c : PullCall) : Prop :=
  callKey c = key ∧
    match c with
    | .replace _ _ _ rev _ ids why => rev = thatrev ∧ ∀ mine, why = .behind mine → mine.rev ∈ ids
    | _ => True

section Structure
variable (env : ChangeEnv) (key : CString)

theorem resolveConflict_writesLast (rev thatrev : LaRev) (object : LaCodecValue)
    (ids : List LaStorageRev) :
    WritesLast isWrite (MadeFor key thatrev)
      (resolveConflict env key rev thatrev object ids) := by
  apply writesLast_read ⟨rfl, trivial⟩ rfl
  intro mine
  split
  · apply writesLast_read ⟨rfl, trivial⟩ rfl
    intro resolution
    cases resolution with
    | takeMine => trivial
    | takeTheirs => exact writesLast_write ⟨rfl, rfl, by simp⟩ rfl fun _ => ⟨_, rfl⟩
    | takeMerged merged => exact writesLast_write ⟨rfl, trivial⟩ rfl fun _ => ⟨_, rfl⟩
  · split <;> trivial

theorem compareRevs_writesLast (rev thatrev : LaRev) (object : LaCodecValue)
    (ids : List LaStorageRev) :
    WritesLast isWrite (MadeFor key thatrev) (compareRevs env key rev thatrev object ids) := by
  apply writesLast_read ⟨rfl, trivial⟩ rfl
  intro all
  split
  · trivial
  · rename_i mine built
    obtain ⟨rest, rfl⟩ := localRevs_head built
    by_cases behind : laStorageRevsOverlap (rev.rev :: rest) ids = true
    · simp only [if_pos behind]
      refine writesLast_write ⟨rfl, rfl, ?_⟩ rfl fun _ => ⟨_, rfl⟩
      rintro _ ⟨⟩
      exact List.dropLast_subset ids (head_mem_of_overlap behind)
    · simp only [if_neg behind]
      split
      · exact resolveConflict_writesLast env key rev thatrev object ids
      · trivial

theorem takeVersion_writesLast (mine : Option LaRev) (thatrev : LaRev) (object : LaCodecValue)
    (ids : List LaStorageRev) :
    WritesLast isWrite (MadeFor key thatrev) (takeVersion env key mine thatrev object ids) := by
  cases mine with
  | none => exact writesLast_write ⟨rfl, rfl, by simp⟩ rfl fun _ => ⟨_, rfl⟩
  | some rev => exact compareRevs_writesLast env key rev thatrev object ids

variable {env key} {json : JsonLib} {urlbase revText : CString} {buffer : List UInt8}

theorem fetchVersion_writesLast (thatrev : LaRev) (mine : Option LaRev) :
    WritesLast isWrite (MadeFor key thatrev)
      (fetchVersion env key json urlbase revText thatrev mine buffer) := by
  cases fetched : fetchedVersion env key json urlbase revText buffer with
  | none =>
    rcases fetchVersion_none fetched thatrev mine with trapped | ⟨why, rest, done, -⟩
    · rw [trapped]
      trivial
    · rw [done]
      trivial
  | some version =>
    rw [fetchVersion_some fetched]
    exact (takeVersion_writesLast env key mine thatrev _ _).map _

/-- Every call for a change is about its key, and the loop writes last. -/
theorem handleChange_writesLast {change : LaCodecValue}
    (named : changeKeyRev change = some (key, revText)) :
    WritesLast isWrite (MadeFor key (laRevScan revText env.uninitRev).2)
      (handleChange json urlbase env change buffer) := by
  rw [handleChange, named]
  apply writesLast_read ⟨rfl, trivial⟩ rfl
  intro ret
  split
  · trivial
  · exact fetchVersion_writesLast _ none
  · split
    · trivial
    · exact fetchVersion_writesLast _ _
  · trivial

end Structure

section Serve
variable {host : LaHost} {resolver : Resolver} {s s' : BdbStore}

/-- Only a write changes the store. -/
theorem servePull_readsKeep : ReadsKeep (servePull host resolver) isWrite := by
  intro c s r s' reads served
  cases c with
  | get calls key => exact (Prod.mk.inj (Option.some.inj served)).2.symm
  | getAllrevs calls key => exact (Prod.mk.inj (Option.some.inj served)).2.symm
  | resolve key mine theirs rev => exact (Prod.mk.inj (Option.some.inj served)).2.symm
  | replace => cases reads
  | put => cases reads

/-- A write leaves the records of other keys as they are. -/
theorem servePull_frame {c : PullCall} {r : PullReply c}
    (served : servePull host resolver c s = some (r, s')) {key : CString}
    (other : key ≠ callKey c) :
    s'.db.lookup key = s.db.lookup key := by
  cases c with
  | get => rw [servePull_readsKeep _ _ _ _ rfl served]
  | getAllrevs => rw [servePull_readsKeep _ _ _ _ rfl served]
  | resolve => rw [servePull_readsKeep _ _ _ _ rfl served]
  | replace calls c key' rev doc ids why =>
    obtain ⟨ret, written, reply⟩ := Option.map_eq_some_iff.mp served
    obtain ⟨-, rfl⟩ := Prod.mk.inj reply
    exact laDbReplace_frame written other
  | put calls c key' rev doc =>
    obtain ⟨ret, written, reply⟩ := Option.map_eq_some_iff.mp served
    obtain ⟨-, rfl⟩ := Prod.mk.inj reply
    exact doLaDbPut_frame written other

end Serve

end PullCalls
