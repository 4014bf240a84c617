import Lounge.Api.CompressedMap
import Lounge.Api.RankedView

/-!
# Views of the whole store

What a view over the compressed store delivers, in terms of the calls that filled it: what its map
function emits for the live documents, in the order in which their keys were last written, and
at last the reduction of all that.
-/

namespace CompressedView
open FlatMemory ObjectStore CodecValue CouchRevgen LoungeApi ApiWrites BdbDriver BdbRecord BdbPut
  BdbAtomicity BdbSequence ApiMap CompressedMap ViewIteration RankedView Recency Runs

/-- The keys of the acknowledged calls, each at the place of its last one. -/
def lastCalls (order : List CString) (e : Event BdbStore StoreCall (Option Reply)) :
    List CString :=
  if e.output.any Reply.ok then (keyOf e.input.2).elim order (touch order) else order

/-- The document of a live entry. -/
def documentOf : Option Entry → Option LaCodecValue
  | some (.live doc _) => some doc
  | _ => none

/-- A fair call that the index copes with: the sequence gives it a number, and the key is not
empty. -/
structure Numbered (codec : CodecLib) (e : Event BdbStore StoreCall (Option Reply)) : Prop
    extends Fair codec e where
  seq : SeqObtained e.input.1.calls e.before
  named : ∀ key ∈ keyOf e.input.2, key.bytes ≠ []

section Step
variable {codec : CodecLib} {revgen : RevgenLib} {s : BdbStore}

/-- A stored record holds its number. -/
theorem covers_of_reads {o : LaStorageObject} {entry : Entry}
    (reads : Reads codec (some (recordBytes o)) (some entry)) :
    8 ≤ o.laStorageObjectTotalSize % 2 ^ 32 := by
  cases entry with
  | gone =>
    obtain ⟨d, same, -⟩ := reads
    exact covers_docRecord same
  | live doc rev =>
    obtain ⟨d, same, -⟩ := reads
    exact covers_docRecord same

theorem step_ranked {order : List CString} (ranked : Ranked s order) (call : StoreCall)
    (fair : Numbered codec (event (storeStep codec revgen) s call)) :
    Ranked (storeStep codec revgen s call).2
      (lastCalls order (event (storeStep codec revgen) s call)) := by
  rcases storeStep_cases call fair.toFair with refused | ⟨o, entry, stored⟩
  · have unmoved : lastCalls order (event (storeStep codec revgen) s call) = order := by
      rw [lastCalls, if_neg]
      rw [Bool.not_eq_true]
      exact refused.reply
    rw [refused.store, unmoved]
    exact ranked
  · have moved : lastCalls order (event (storeStep codec revgen) s call) = touch order o.key := by
      have acknowledged : (event (storeStep codec revgen) s call).output.any Reply.ok = true :=
        stored.acknowledged
      have key : keyOf (event (storeStep codec revgen) s call).input.2 = some o.key := stored.key
      rw [lastCalls, if_pos acknowledged, key]
      rfl
    have covers := covers_of_reads stored.reads
    rw [stored.committed, moved]
    exact ranked_written ranked fair.seq (fair.named o.key stored.key) covers

end Step

section View
variable {codec : CodecLib} (revgen : RevgenLib) {s : BdbStore} {around : Surroundings}
  (heap : CString → Memory) {t : Table}
  (allocated : ∀ n, 0 ≤ n → around.allocates n = true)
include allocated

/-- A view finds in a record the document of its entry. Only deleted ones have none. -/
theorem liveDoc_reads {key : CString} {value : List UInt8} {entry : Option Entry}
    (reads : Reads codec (some value) entry) :
    liveDoc (lz4Host codec revgen around) heap (key.bytes, value) = documentOf entry ∧
      ((entryObject heap (key.bytes, value)).header.deleted = false →
        (documentOf entry).isSome) := by
  rcases entry with _ | ⟨doc, rev⟩ | _
  · exact reads.elim
  · obtain ⟨d, rfl, notDeleted, -, -, compressed⟩ := reads
    rw [liveDoc_docRecord, notDeleted]
    exact ⟨compressed.decoded allocated, fun _ => rfl⟩
  · obtain ⟨d, rfl, deleted⟩ := reads
    rw [liveDoc_docRecord, deleted_docRecord, deleted]
    exact ⟨rfl, nofun⟩

/-- The live records are the live entries of the map. -/
theorem documents_mirrored (mirrors : Mirrors codec s t) :
    Documents (lz4Host codec revgen around) heap s fun key => documentOf (t key) := by
  constructor
  · intro key value stored
    have reads := mirrors key
    rw [stored] at reads
    exact (liveDoc_reads revgen heap allocated reads).1
  · intro key value stored
    have reads := mirrors key
    rw [stored] at reads
    exact (liveDoc_reads revgen heap allocated reads).2
  · intro key absent
    have reads := mirrors key
    rw [absent] at reads
    cases entry : t key with
    | none => rfl
    | some _ =>
      rw [entry] at reads
      exact reads.elim

end View

section Runs
variable (codec : CodecLib) (revgen : RevgenLib) (calls : List StoreCall)

/-- The keys written by a run on a fresh store, in the order of their last writes. -/
def orderAfter : List CString :=
  replay lastCalls [] (events (storeStep codec revgen) bdbEmpty calls)

/-- The document that such a run leaves under a key. -/
def documentAfter (key : CString) : Option LaCodecValue :=
  documentOf (replay recordCall (fun _ => none) (events (storeStep codec revgen) bdbEmpty calls)
    key)

/-- What a view emits for the documents left, in the order of their last writes. -/
def viewAfter (view : LaView) : List LaCodecValue :=
  ((orderAfter codec revgen calls).filterMap (documentAfter codec revgen calls)).flatMap
    (emitted view)

/-- After any calls, each in surroundings of its own, a view that emits something for every
live document delivers what it emits, for each of them once and in the order of the last
acknowledged calls on their keys, and then the end with the reduction of what was delivered. -/
theorem view_stored
    (fair : ∀ e ∈ events (storeStep codec revgen) bdbEmpty calls, Numbered codec e)
    {around : Surroundings} (allocated : ∀ n, 0 ≤ n → around.allocates n = true)
    (heap : CString → Memory) {view : LaView}
    (emits : ∀ key ∈ orderAfter codec revgen calls, ∀ doc ∈ documentAfter codec revgen calls key,
      emitted view doc ≠ []) :
    (orderAfter codec revgen calls).Nodup ∧
      ∃ it, laDbView (final (storeStep codec revgen) bdbEmpty calls) = some it ∧
        Drains (lz4Host codec revgen around) view heap it (viewAfter codec revgen calls view)
          .iterEnd (reduced view none (viewAfter codec revgen calls view)) := by
  have mirrors : Mirrors codec (final (storeStep codec revgen) bdbEmpty calls)
      (replay recordCall (fun _ => none) (events (storeStep codec revgen) bdbEmpty calls)) :=
    simulated (Mirrors codec) (fun s t call here fair => step_mirrors here call fair)
      (fun _ => trivial) fun e he => (fair e he).toFair
  have ranked : Ranked (final (storeStep codec revgen) bdbEmpty calls)
      (orderAfter codec revgen calls) :=
    simulated Ranked (fun s known call here fair => step_ranked here call fair) ranked_empty fair
  exact ⟨nodup_of_pairwise ranked.sorted,
    drains_ranked ranked (documents_mirrored revgen heap allocated mirrors) emits⟩

private def viewedText (text : List UInt8) : LaCodecValue :=
  .object [(memberName, .string (CString.ofBytes text))]

/-- Puts of two documents, and of another text for the first one. -/
private def putTwoRewrite : List StoreCall :=
  [({}, .put {} (some (CString.ofBytes [97])) none (some (viewedText [98]))),
    ({}, .put {} (some (CString.ofBytes [98])) none (some (viewedText [99]))),
    ({}, .put {} (some (CString.ofBytes [97])) (some ⟨1, zeroRev⟩) (some (viewedText [100])))]

/-- Every document is emitted, followed by a number, and the values are counted. -/
private def countingView : LaView where
  map := some fun doc => [some doc, none, some (.integer 1)]
  reduce := some fun accum _ =>
    match accum with
    | some (.integer n) => some (.integer (n + 1))
    | _ => some (.integer 1)

theorem view_stored_putTwoRewrite :
    (orderAfter textHost.codec zeroRevgen putTwoRewrite).Nodup ∧
      ∃ it, laDbView (final (storeStep textHost.codec zeroRevgen) bdbEmpty putTwoRewrite) =
          some it ∧
        Drains (lz4Host textHost.codec zeroRevgen {}) countingView (fun _ _ => 0) it
          (viewAfter textHost.codec zeroRevgen putTwoRewrite countingView) .iterEnd
          (reduced countingView none
            (viewAfter textHost.codec zeroRevgen putTwoRewrite countingView)) := by
  have fair : ∀ e ∈ events (storeStep textHost.codec zeroRevgen) bdbEmpty putTwoRewrite,
      Fair textHost.codec e := fair_of_takes (by decide +kernel) (by decide +kernel)
  have numbered : ∀ e ∈ events (storeStep textHost.codec zeroRevgen) bdbEmpty putTwoRewrite,
      SeqObtained e.input.1.calls e.before ∧ ∀ key ∈ keyOf e.input.2, key.bytes ≠ [] := by
    simp only [SeqObtained]
    decide +kernel
  refine view_stored textHost.codec zeroRevgen putTwoRewrite ?_ (fun _ _ => rfl) _ ?_
  · exact fun e he => ⟨fair e he, (numbered e he).1, (numbered e he).2⟩
  · intro key _ doc _ silent
    cases silent

end Runs

end CompressedView
