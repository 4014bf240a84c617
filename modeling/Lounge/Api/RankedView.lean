import Lounge.Api.ViewIteration
import Lounge.Storage.BdbSequence

/-!
# Views of a ranked store

Where the index lists the keys in an order, a view delivers what it emits for the document
of each key, in this order.
-/

namespace RankedView
open FlatMemory ObjectStore CodecValue LoungeApi BdbDriver BdbRecord BdbSequence ViewIteration

/-- The live records of the store decode to these documents. -/
structure Documents (host : LaHost) (heap : CString → Memory) (s : BdbStore)
    (documents : CString → Option LaCodecValue) : Prop where
  decoded : ∀ key value, s.db.lookup key = some value →
    liveDoc host heap (key.bytes, value) = documents key
  live : ∀ key value, s.db.lookup key = some value →
    (entryObject heap (key.bytes, value)).header.deleted = false → (documents key).isSome
  absent : ∀ key, s.db.lookup key = none → documents key = none

section Record
variable (host : LaHost) (heap : CString → Memory) (key : CString) (d : DocRecord)

theorem deleted_docRecord :
    (entryObject heap (key.bytes, d.bytes)).header.deleted = d.header.deleted := by
  obtain ⟨-, header, -⟩ :=
    objectOfValue_docRecord d (heap (keycpy key.bytes)) (keycpy key.bytes)
  rw [entryObject, header]

theorem liveDoc_docRecord : liveDoc host heap (key.bytes, d.bytes) =
    if d.header.deleted then none else (host.inflate d.body).bind host.codec.loadb := by
  obtain ⟨-, -, -, data, -⟩ :=
    objectOfValue_docRecord d (heap (keycpy key.bytes)) (keycpy key.bytes)
  rw [liveDoc, deleted_docRecord, entryObject, data]

end Record

section Index
variable {host : LaHost} {heap : CString → Memory} {s : BdbStore} {order : List CString}
  {documents : CString → Option LaCodecValue} (ranked : Ranked s order)
  (decodes : Documents host heap s documents)
include ranked decodes

theorem liveDocs_ranked : liveDocs host heap s = order.filterMap documents := by
  rw [liveDocs, seqDb_ranked ranked, List.filterMap_filterMap]
  refine List.filterMap_congr fun key _ => ?_
  cases stored : s.db.lookup key with
  | none => rw [entryAt, stored, decodes.absent key stored]; rfl
  | some value => rw [entryAt, stored, ← decodes.decoded key value stored]; rfl

theorem decodes_ranked : Decodes host heap (seqDb s) := by
  intro e he live
  rw [seqDb_ranked ranked] at he
  obtain ⟨key, -, found⟩ := List.mem_filterMap.mp he
  obtain ⟨value, stored, rfl⟩ := Option.map_eq_some_iff.mp found
  rw [decodes.decoded key value stored]
  exact decodes.live key value stored live

theorem drains_ranked {view : LaView}
    (emits : ∀ key ∈ order, ∀ doc ∈ documents key, emitted view doc ≠ []) :
    ∃ it, laDbView s = some it ∧
      Drains host view heap it ((order.filterMap documents).flatMap (emitted view)) .iterEnd
        (reduced view none ((order.filterMap documents).flatMap (emitted view))) := by
  rw [← liveDocs_ranked ranked decodes]
  refine ⟨_, laDbView_cursor s, drains_all (decodes_ranked ranked decodes) ?_ none⟩
  intro doc hdoc
  change doc ∈ liveDocs host heap s at hdoc
  rw [liveDocs_ranked ranked decodes] at hdoc
  obtain ⟨key, here, document⟩ := List.mem_filterMap.mp hdoc
  exact emits key here doc document

end Index

end RankedView
