import Lounge.Lib.Runs
import Lounge.Storage.BdbPut

/-!
# Serialised puts on one key

Clients share the environment and each put is one isolated transaction, so what
they do together is a list of puts in commit order. The store acknowledges a put
on an existing record only against the revision of the put acknowledged before.
-/

namespace BdbCommits
open FlatMemory ObjectStore BdbDriver BdbRecord BdbPut Runs

/-- One client's call of `bdb_la_storage_put`. -/
structure PutRequest where
  client : Nat
  calls : BdbCalls
  rev : Option LaStorageRev
  obj : LaStorageObject

/-- A call that traps ends its client and leaves the store to the others. -/
def putStep (s : BdbStore) (p : PutRequest) : Option BdbPutReturn × BdbStore :=
  let ret := bdbLaStoragePut p.calls s p.rev p.obj
  (ret, (ret.map BdbPutReturn.store).getD s)

abbrev PutEvent := Event BdbStore PutRequest (Option BdbPutReturn)

def succeeded (e : PutEvent) : Bool :=
  e.output.any fun ret => ret.result == .success

/-- The successful puts of a run, in commit order. -/
def commits (s : BdbStore) (ps : List PutRequest) : List PutEvent :=
  (events putStep s ps).filter succeeded

/-- The key is absent, or the put names the stored revision. -/
def NamesBase (s : BdbStore) (p : PutRequest) : Prop :=
  ∀ value, s.db.lookup p.obj.key = some value →
    p.rev = some (partialHeader p.calls.stack value).rev

/-- The size of the record that a put on this store is about to write. -/
def recordSize (s : BdbStore) (p : PutRequest) : Nat :=
  match s.db.lookup p.obj.key with
  | none => headerSize + p.obj.dataLength.toNat
  | some value =>
    headerSize + 16 * (pushedCount (partialHeader p.calls.stack value) p.obj).toNat +
      p.obj.dataLength.toNat

/-- A put that can go through does not write a record whose size, cut to the 32 bits of a
DBT, ends inside the header. -/
def KeepsHeader (e : PutEvent) : Prop :=
  NamesBase e.before e.input → headerSize ≤ recordSize e.before e.input % 2 ^ 32

/-- Puts on one key, absent at first, during which nothing fails. -/
structure SerialPuts (key : CString) (s : BdbStore) (ps : List PutRequest) : Prop where
  absent : s.db.lookup key = none
  sameKey : ∀ p ∈ ps, p.obj.key = key
  calls : ∀ p ∈ ps, p.calls.Succeed
  sequence : ∀ e ∈ events putStep s ps, e.before.seqNext ≤ seqMax

/-- What optimistic concurrency promises of a run of puts. -/
structure Optimistic (key : CString) (s : BdbStore) (ps : List PutRequest) : Prop where
  base : ∀ k (h : k + 1 < (commits s ps).length),
    (commits s ps)[k + 1].input.rev = some (commits s ps)[k].input.obj.header.rev
  header : ∀ k (h : k < (commits s ps).length), ∃ hd,
    StoredHeader (commits s ps)[k].after key hd ∧
      hd.rev = (commits s ps)[k].input.obj.header.rev ∧ hd.docSeq.toNat = k + 1
  conflict : ∀ e ∈ events putStep s ps, ∀ ret, e.output = some ret → ret.result = .conflict →
    e.after = e.before
  noLostUpdate : ∀ i j (hij : i < j) (hj : j < (commits s ps).length) (b : LaStorageRev),
    (commits s ps)[i].input.rev = some b → (commits s ps)[j].input.rev = some b →
    ∃ m, ∃ hm : i ≤ m ∧ m < j, (commits s ps)[m].input.obj.header.rev = b

/-- After `k` commits: nothing is stored yet, or the header of the last commit is. The
sequence has counted every commit, which keeps `doc_seq` from wrapping. -/
structure AfterCommits (key : CString) (s : BdbStore) (k : Nat) (last : Option LaStorageRev) :
    Prop where
  counted : k ≤ s.seqNext
  fresh : last = none → k = 0 ∧ s.db.lookup key = none
  stored : ∀ r, last = some r →
    ∃ hd, StoredHeader s key hd ∧ hd.rev = r ∧ hd.docSeq.toNat = k

theorem seqGet_next {c : BdbCalls} {s : BdbStore} (ok : c.seqGet = true)
    (room : s.seqNext ≤ seqMax) : seqGet c s = (UInt64.ofNat s.seqNext, s.seqNext + 1) := by
  simp [seqGet, ok, room]

theorem written_storedHeader {c : BdbCalls} {s : BdbStore} {o : LaStorageObject}
    (covers : headerSize ≤ o.laStorageObjectTotalSize % 2 ^ 32) :
    StoredHeader (written c s o) o.key (numbered c s o).header := by
  have hnumbered : headerSize ≤ (numbered c s o).laStorageObjectTotalSize % 2 ^ 32 := covers
  obtain ⟨tail, htail⟩ := recordBytes_header hnumbered
  exact ⟨tail, by rw [written, AList.lookup_insert, htail]⟩

/-- A prepared object names its base and has the size that the store foretells. -/
theorem prepared_size {s : BdbStore} {p : PutRequest} {o : LaStorageObject}
    (h : Prepared p.calls s p.rev p.obj o) :
    NamesBase s p ∧ o.laStorageObjectTotalSize = recordSize s p := by
  cases h with
  | created absent =>
    exact ⟨fun value hv => by simp [absent] at hv,
      by simp [recordSize, absent, LaStorageObject.laStorageObjectTotalSize]⟩
  | updated value found base _ pushed =>
    obtain ⟨_, _, hh, hl, _⟩ := pushRevision_cases pushed
    refine ⟨fun v hv => ?_, ?_⟩
    · rw [found] at hv
      obtain rfl := Option.some.inj hv
      exact base
    · simp only [recordSize, found, LaStorageObject.laStorageObjectTotalSize, hh, hl,
        pushedHeader_revCount]

/-- A put that does not succeed changes nothing. -/
theorem putStep_unsuccessful {s : BdbStore} {p : PutRequest}
    (fails : succeeded (event putStep s p) = false) : (putStep s p).2 = s := by
  cases hret : bdbLaStoragePut p.calls s p.rev p.obj with
  | none => simp [putStep, hret]
  | some ret =>
    rcases bdbLaStoragePut_cases hret with unstored | ⟨o, _, stored⟩
    · simp [putStep, hret, unstored.store]
    · simp [succeeded, event, putStep, hret, stored.result] at fails

/-- A successful put names the revision of the last commit and becomes the last commit. -/
theorem putStep_successful {key : CString} {s : BdbStore} {p : PutRequest} {k : Nat}
    {last : Option LaStorageRev} (inv : AfterCommits key s k last) (same : p.obj.key = key)
    (ok : p.calls.Succeed) (room : s.seqNext ≤ seqMax)
    (succ : succeeded (event putStep s p) = true)
    (covers : KeepsHeader (event putStep s p)) :
    (last ≠ none → p.rev = last) ∧
      AfterCommits key (putStep s p).2 (k + 1) (some p.obj.header.rev) := by
  cases hret : bdbLaStoragePut p.calls s p.rev p.obj with
  | none => simp [succeeded, event, putStep, hret] at succ
  | some ret =>
    rcases bdbLaStoragePut_cases hret with unstored | ⟨o, hprep, stored⟩
    · simp [succeeded, event, putStep, hret, unstored.refused ok] at succ
    obtain ⟨hnames, hsize⟩ := prepared_size hprep
    have hcovers : headerSize ≤ o.laStorageObjectTotalSize % 2 ^ 32 := hsize ▸ covers hnames
    have hstored := written_storedHeader (c := p.calls) (s := s) hcovers
    have hafter : (putStep s p).2 = written p.calls s o := by
      simp [putStep, hret, stored.store]
    have hcount : (written p.calls s o).seqNext = s.seqNext + 1 := by
      simp [written, seqGet_next ok.seqGet room]
    obtain ⟨hrev, _, _⟩ := hprep.header
    have key_eq : o.key = key := hprep.key.trans same
    have hseq : (last ≠ none → p.rev = last) ∧ o.header.docSeq.toNat = k + 1 := by
      cases hprep with
      | created absent =>
        cases hl : last with
        | none => exact ⟨fun h => absurd rfl h, by simp [(inv.fresh hl).1]⟩
        | some r =>
          obtain ⟨hd, ⟨tail, ht⟩, _⟩ := inv.stored r hl
          rw [same, ht] at absent
          cases absent
      | updated value found base _ pushed =>
        cases hl : last with
        | none =>
          rw [same, (inv.fresh hl).2] at found
          cases found
        | some r =>
          obtain ⟨hd, ⟨tail, ht⟩, hr, hk⟩ := inv.stored r hl
          rw [same, ht] at found
          obtain rfl := Option.some.inj found
          obtain ⟨_, _, hh, _, _⟩ := pushRevision_cases pushed
          rw [partialHeader_bytes] at base hh
          refine ⟨fun _ => by rw [base, hr], ?_⟩
          have := inv.counted
          rw [hh, pushedHeader_docSeq, UInt64.toNat_add, hk, seqMax] at *
          simp
          omega
    refine ⟨hseq.1, ?_⟩
    rw [hafter]
    refine ⟨?_, fun h => by simp at h, ?_⟩
    · rw [hcount]
      exact Nat.succ_le_succ inv.counted
    · rintro r ⟨rfl⟩
      rw [key_eq] at hstored
      exact ⟨_, hstored, hrev, hseq.2⟩

/-- The successful puts of a run, each against the one before, starting from `k` commits
the last of which stored `last`. -/
inductive Linked (key : CString) : Nat → Option LaStorageRev → List PutEvent → Prop
  | nil (k : Nat) (last : Option LaStorageRev) : Linked key k last []
  | cons {k : Nat} {last : Option LaStorageRev} {e : PutEvent} {rest : List PutEvent}
      (base : last ≠ none → e.input.rev = last)
      (header : ∃ hd, StoredHeader e.after key hd ∧ hd.rev = e.input.obj.header.rev ∧
        hd.docSeq.toNat = k + 1)
      (tail : Linked key (k + 1) (some e.input.obj.header.rev) rest) :
      Linked key k last (e :: rest)

/-- Every run of puts links its commits. -/
theorem commits_linked {key : CString} {s : BdbStore} {ps : List PutRequest} {k : Nat}
    {last : Option LaStorageRev} (inv : AfterCommits key s k last)
    (same : ∀ p ∈ ps, p.obj.key = key) (ok : ∀ p ∈ ps, p.calls.Succeed)
    (room : ∀ e ∈ events putStep s ps, e.before.seqNext ≤ seqMax)
    (covers : ∀ e ∈ events putStep s ps, KeepsHeader e) :
    Linked key k last (commits s ps) := by
  induction ps generalizing s k last with
  | nil => exact .nil k last
  | cons p rest ih =>
    have hroom := room _ List.mem_cons_self
    have hok := ok p List.mem_cons_self
    have hsame' := fun q hq => same q (List.mem_cons_of_mem p hq)
    have hok' := fun q hq => ok q (List.mem_cons_of_mem p hq)
    have hroom' := fun e he => room e (List.mem_cons_of_mem (event putStep s p) he)
    have hcovers' := fun e he => covers e (List.mem_cons_of_mem (event putStep s p) he)
    cases hsucc : succeeded (event putStep s p) with
    | false =>
      have hcommits : commits s (p :: rest) = commits (putStep s p).2 rest := by
        simp [commits, events, hsucc]
      rw [hcommits]
      have hstay := putStep_unsuccessful hsucc
      exact ih (hstay.symm ▸ inv) hsame' hok' hroom' hcovers'
    | true =>
      have hcommits : commits s (p :: rest) =
          event putStep s p :: commits (putStep s p).2 rest := by
        simp [commits, events, hsucc]
      rw [hcommits]
      obtain ⟨hbase, hnext⟩ := putStep_successful inv (same p List.mem_cons_self) hok hroom hsucc
        (covers _ List.mem_cons_self)
      exact .cons hbase (hnext.stored _ rfl) (ih hnext hsame' hok' hroom' hcovers')

theorem Linked.header_at {key : CString} {k : Nat} {last : Option LaStorageRev}
    {es : List PutEvent} (linked : Linked key k last es) (i : Nat) (h : i < es.length) :
    ∃ hd, StoredHeader es[i].after key hd ∧ hd.rev = es[i].input.obj.header.rev ∧
      hd.docSeq.toNat = k + i + 1 := by
  induction linked generalizing i with
  | nil => simp at h
  | cons base header tail ih =>
    cases i with
    | zero => exact header
    | succ i =>
      have := ih i (by simpa using h)
      simpa [Nat.add_assoc, Nat.add_comm 1] using this

theorem Linked.base_at {key : CString} {k : Nat} {last : Option LaStorageRev}
    {es : List PutEvent} (linked : Linked key k last es) (i : Nat) (h : i + 1 < es.length) :
    es[i + 1].input.rev = some es[i].input.obj.header.rev := by
  induction linked generalizing i with
  | nil => simp at h
  | cons base header tail ih =>
    cases i with
    | zero =>
      cases tail with
      | nil => simp at h
      | cons base' _ _ => exact base' (by simp)
    | succ i => exact ih i (by simpa using h)

theorem putStep_conflict {s : BdbStore} {p : PutRequest} {ret : BdbPutReturn}
    (h : (putStep s p).1 = some ret) (conflict : ret.result = .conflict) :
    (putStep s p).2 = s := by
  have hret : bdbLaStoragePut p.calls s p.rev p.obj = some ret := h
  rcases bdbLaStoragePut_cases hret with unstored | ⟨o, _, stored⟩
  · simp [putStep, hret, unstored.store]
  · rw [stored.result] at conflict
    cases conflict

theorem events_conflict {s : BdbStore} {ps : List PutRequest} {e : PutEvent}
    (he : e ∈ events putStep s ps) {ret : BdbPutReturn} (hret : e.output = some ret)
    (conflict : ret.result = .conflict) : e.after = e.before := by
  induction ps generalizing s with
  | nil => cases he
  | cons p rest ih =>
    rcases List.mem_cons.mp he with rfl | he
    · exact putStep_conflict hret conflict
    · exact ih he

/-- Whatever the clients and the order of their commits: each successful put is against the
one before it, as long as no record is cut inside its header. -/
theorem puts_optimistic {key : CString} {s : BdbStore} {ps : List PutRequest}
    (serial : SerialPuts key s ps) (covers : ∀ e ∈ events putStep s ps, KeepsHeader e) :
    Optimistic key s ps := by
  have start : AfterCommits key s 0 none :=
    ⟨Nat.zero_le _, fun _ => ⟨rfl, serial.absent⟩, fun r h => by cases h⟩
  have linked := commits_linked start serial.sameKey serial.calls serial.sequence covers
  refine ⟨fun k h => linked.base_at k h, fun k h => ?_, ?_, ?_⟩
  · simpa using linked.header_at k h
  · exact fun e he ret hret hc => events_conflict he hret hc
  · intro i j hij hj b _ hbase
    -- The put before `j` stored the revision that `j` names.
    obtain ⟨j, rfl⟩ : ∃ m, j = m + 1 := ⟨j - 1, by omega⟩
    rw [linked.base_at j hj] at hbase
    exact ⟨j, ⟨by omega, by omega⟩, Option.some.inj hbase⟩

section Runs
/-- An object as `la_storage_create_object` makes it without a history, with `length` bytes. -/
private def plainObject (rev : UInt8) (length : UInt32) : LaStorageObject where
  key := CString.ofBytes [97]
  header := ⟨0, 0, false, 0, uniformRev rev⟩
  revsData := fun _ => 0
  alloc := length.toNat
  dataLength := length

/-- Two clients put in turn; the second names the revision of the first. -/
theorem puts_optimistic_pair :
    Optimistic (CString.ofBytes [97]) bdbEmpty
      [⟨0, {}, none, plainObject 1 1⟩,
        ⟨1, {}, some (uniformRev 1), plainObject 2 1⟩] := by
  refine puts_optimistic ⟨by decide, by decide, ?_, by decide +kernel⟩ ?_
  · intro p hp
    simp only [List.mem_cons, List.not_mem_nil, or_false] at hp
    rcases hp with rfl | rfl <;> constructor <;> rfl
  · intro e he _
    simp only [events, List.mem_cons, List.not_mem_nil, or_false] at he
    rcases he with rfl | rfl <;> decide +kernel

private def hugePut : PutRequest := ⟨0, {}, none, plainObject 1 4294967262⟩

/-- A document of `2 ^ 32 - 34` bytes makes a record of size 0: the acknowledged put leaves
no header behind. -/
theorem huge_put_not_optimistic :
    SerialPuts (CString.ofBytes [97]) bdbEmpty [hugePut] ∧
    ¬ Optimistic (CString.ofBytes [97]) bdbEmpty [hugePut] := by
  refine ⟨⟨by decide, by decide, ?_, by decide +kernel⟩, fun h => ?_⟩
  · intro p hp
    rw [List.mem_singleton.mp hp]
    constructor <;> rfl
  · have hone : 0 < (commits bdbEmpty [hugePut]).length := by decide +kernel
    have hempty : ∀ e ∈ commits bdbEmpty [hugePut],
        e.after.db.lookup (CString.ofBytes [97]) = some [] := by decide +kernel
    obtain ⟨hd, ⟨tail, ht⟩, _⟩ := h.header 0 hone
    rw [hempty _ (List.getElem_mem hone)] at ht
    have hlen := congrArg List.length (Option.some.inj ht)
    rw [List.length_nil, List.length_append, length_header_bytes, headerSize] at hlen
    omega

end Runs

end BdbCommits
