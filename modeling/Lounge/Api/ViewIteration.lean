import Lounge.Api.LoungeApi

/-!
# Draining a view

A view is drained by calling `la_view_iterator_next` until it stops delivering; with the end
comes the reduction of what was delivered.
The loop behind it ends with the first live document it parses, whether or not
that document put anything into the queue; an empty queue is then an error.
-/

namespace ViewIteration
open FlatMemory ObjectStore CodecValue BdbDriver LoungeApi

section Drain
variable (host : LaHost) (view : LaView) (heap : CString → Memory)

/-- Calling until the result is not `GOT_NEXT`: the values delivered, and the last result with
the value that comes with it. -/
inductive Drains : LaViewIterator → List LaCodecValue → LaViewIteratorResult →
    Option LaCodecValue → Prop
  | stop {it it' : LaViewIterator} {result : LaViewIteratorResult} {value : Option LaCodecValue}
      (next : laViewIteratorNext host view heap it = (result, value, it'))
      (last : result ≠ .gotNext) : Drains it [] result value
  | more {it it' : LaViewIterator} {v : LaCodecValue} {vs : List LaCodecValue}
      {result : LaViewIteratorResult} {value : Option LaCodecValue}
      (next : laViewIteratorNext host view heap it = (.gotNext, some v, it'))
      (rest : Drains it' vs result value) : Drains it (v :: vs) result value

/-- What the iterator has accumulated after handing out values. -/
def reduced (view : LaView) (accum : Option LaCodecValue) (vs : List LaCodecValue) :
    Option LaCodecValue :=
  match view.reduce with
  | some reduce => vs.foldl reduce accum
  | none => accum

/-- What a live record decodes to; deleted ones are passed over. -/
def liveDoc (e : List UInt8 × List UInt8) : Option LaCodecValue :=
  if (entryObject heap e).header.deleted then none
  else (host.inflate (entryObject heap e).laStorageObjectGetData).bind host.codec.loadb

/-- The live documents of a store, in iteration order. -/
def liveDocs (s : BdbStore) : List LaCodecValue := (seqDb s).filterMap (liveDoc host heap)

/-- Every live record decodes. -/
def Decodes (es : List (List UInt8 × List UInt8)) : Prop :=
  ∀ e ∈ es, (entryObject heap e).header.deleted = false → (liveDoc host heap e).isSome

instance (es : List (List UInt8 × List UInt8)) : Decidable (Decodes host heap es) :=
  inferInstanceAs (Decidable (∀ e ∈ es, (entryObject heap e).header.deleted = false →
    (liveDoc host heap e).isSome))

/-- The view delivers exactly what its map emits, then the end. -/
def DeliversAll (s : BdbStore) : Prop :=
  ∃ it value, laDbView s = some it ∧
    Drains host view heap it ((liveDocs host heap s).flatMap (emitted view)) .iterEnd value

end Drain

section Facts
variable {host : LaHost} {view : LaView} {heap : CString → Memory}

theorem drains_deterministic {it : LaViewIterator} {vs ws : List LaCodecValue}
    {r q : LaViewIteratorResult} {value value' : Option LaCodecValue}
    (h : Drains host view heap it vs r value) (h' : Drains host view heap it ws q value') :
    vs = ws ∧ r = q := by
  induction h generalizing ws with
  | stop next last =>
    cases h' with
    | stop next' _ => exact ⟨rfl, congrArg Prod.fst (next.symm.trans next')⟩
    | more next' _ => exact absurd (congrArg Prod.fst (next.symm.trans next')) last
  | more next _ ih =>
    cases h' with
    | stop next' last => exact absurd (congrArg Prod.fst (next'.symm.trans next)) last
    | more next' rest' =>
      have same := next.symm.trans next'
      simp only [Prod.mk.injEq, Option.some.injEq, true_and] at same
      obtain ⟨rfl, rfl⟩ := same
      obtain ⟨hvs, hr⟩ := ih rest'
      exact ⟨by rw [hvs], hr⟩

/-- Iterators that answer the next call alike are drained alike. -/
theorem Drains.of_next_eq {it it' : LaViewIterator} {vs : List LaCodecValue}
    {r : LaViewIteratorResult} {value : Option LaCodecValue}
    (same : laViewIteratorNext host view heap it = laViewIteratorNext host view heap it')
    (h : Drains host view heap it' vs r value) : Drains host view heap it vs r value := by
  cases h with
  | stop next last => exact .stop (same.trans next) last
  | more next rest => exact .more (same.trans next) rest

theorem reduced_append (view : LaView) (accum : Option LaCodecValue)
    (vs ws : List LaCodecValue) :
    reduced view accum (vs ++ ws) = reduced view (reduced view accum vs) ws := by
  cases reduce : view.reduce with
  | none => simp [reduced, reduce]
  | some _ => simp [reduced, reduce]

/-- The first of the queued values is handed out and reduced. -/
theorem takeMapped_queued (view : LaView) (it : LaStorageObjectIterator)
    (accum : Option LaCodecValue) (v : LaCodecValue) (rest : List LaCodecValue) :
    takeMapped view ⟨it, accum, v :: rest⟩ =
      (.gotNext, some v, ⟨it, reduced view accum [v], rest⟩) := by
  cases reduce : view.reduce with
  | none => simp [takeMapped, reduced, reduce]
  | some _ => simp [takeMapped, reduced, reduce]

theorem next_queued (host : LaHost) (view : LaView) (heap : CString → Memory)
    (it : LaStorageObjectIterator) (accum : Option LaCodecValue) (v : LaCodecValue)
    (rest : List LaCodecValue) :
    laViewIteratorNext host view heap ⟨it, accum, v :: rest⟩ =
      (.gotNext, some v, ⟨it, reduced view accum [v], rest⟩) :=
  takeMapped_queued view it accum v rest

/-- Queued values come first, and are reduced. -/
theorem drains_mapped {it : LaStorageObjectIterator} {accum value : Option LaCodecValue}
    {vs : List LaCodecValue} {r : LaViewIteratorResult} (mapped : List LaCodecValue)
    (h : Drains host view heap ⟨it, reduced view accum mapped, []⟩ vs r value) :
    Drains host view heap ⟨it, accum, mapped⟩ (mapped ++ vs) r value := by
  induction mapped generalizing accum with
  | nil =>
    have nothing : reduced view accum [] = accum := by cases r : view.reduce <;> simp [reduced, r]
    rwa [nothing] at h
  | cons v rest ih =>
    rw [show v :: rest = [v] ++ rest from rfl, reduced_append] at h
    exact .more (next_queued host view heap it accum v rest) (ih h)

theorem next_deleted {e : List UInt8 × List UInt8} (rest : List (Option (List UInt8 × List UInt8)))
    (accum : Option LaCodecValue) (deleted : (entryObject heap e).header.deleted = true) :
    laViewIteratorNext host view heap ⟨⟨some e :: rest⟩, accum, []⟩ =
      laViewIteratorNext host view heap ⟨⟨rest⟩, accum, []⟩ := by
  simp [laViewIteratorNext, fillMapped, deleted]

/-- A live document is parsed and its values are queued; the next call fails without any. -/
theorem next_live (view : LaView) {e : List UInt8 × List UInt8} {doc : LaCodecValue}
    (rest : List (Option (List UInt8 × List UInt8))) (accum : Option LaCodecValue)
    (live : liveDoc host heap e = some doc) :
    laViewIteratorNext host view heap ⟨⟨some e :: rest⟩, accum, []⟩ =
      takeMapped view ⟨⟨rest⟩, accum, emitted view doc⟩ := by
  simp only [liveDoc] at live
  split at live
  · cases live
  · rename_i hlive
    simp [laViewIteratorNext, fillMapped, hlive, live]

/-- So the call is the same as after its values were queued, if there are any. -/
theorem next_emits (view : LaView) {e : List UInt8 × List UInt8} {doc v : LaCodecValue}
    {vs : List LaCodecValue} (rest : List (Option (List UInt8 × List UInt8)))
    (accum : Option LaCodecValue) (live : liveDoc host heap e = some doc)
    (emits : emitted view doc = v :: vs) :
    laViewIteratorNext host view heap ⟨⟨some e :: rest⟩, accum, []⟩ =
      laViewIteratorNext host view heap ⟨⟨rest⟩, accum, v :: vs⟩ := by
  rw [next_live view rest accum live, emits, takeMapped_queued, next_queued]

theorem Decodes.tail {e : List UInt8 × List UInt8} {es : List (List UInt8 × List UInt8)}
    (h : Decodes host heap (e :: es)) : Decodes host heap es :=
  fun e' he' => h e' (List.mem_cons_of_mem e he')

/-- Either an entry is deleted and contributes nothing, or it decodes to its document. -/
theorem Decodes.head {e : List UInt8 × List UInt8} {es : List (List UInt8 × List UInt8)}
    (h : Decodes host heap (e :: es)) :
    ((entryObject heap e).header.deleted = true ∧ liveDoc host heap e = none) ∨
      ∃ doc, liveDoc host heap e = some doc := by
  cases hd : (entryObject heap e).header.deleted with
  | true => exact Or.inl ⟨rfl, by simp [liveDoc, hd]⟩
  | false => exact Or.inr (Option.isSome_iff_exists.mp (h e List.mem_cons_self hd))

/-- As long as every live document emits something, all values are delivered, and at last their
reduction. -/
theorem drains_all {es : List (List UInt8 × List UInt8)} (decodes : Decodes host heap es)
    (emits : ∀ doc ∈ es.filterMap (liveDoc host heap), emitted view doc ≠ [])
    (accum : Option LaCodecValue) :
    Drains host view heap ⟨⟨es.map some⟩, accum, []⟩
      ((es.filterMap (liveDoc host heap)).flatMap (emitted view)) .iterEnd
      (reduced view accum ((es.filterMap (liveDoc host heap)).flatMap (emitted view))) := by
  induction es generalizing accum with
  | nil =>
    have next : laViewIteratorNext host view heap ⟨⟨[]⟩, accum, []⟩ =
        (.iterEnd, accum, ⟨⟨[]⟩, accum, []⟩) := rfl
    have nothing : reduced view accum [] = accum := by cases r : view.reduce <;> simp [reduced, r]
    rw [List.filterMap_nil, List.flatMap_nil, nothing]
    exact .stop next (by decide)
  | cons e es ih =>
    rcases decodes.head with ⟨hd, hnone⟩ | ⟨doc, hdoc⟩
    · rw [List.filterMap_cons_none hnone] at emits ⊢
      exact (ih decodes.tail emits accum).of_next_eq (next_deleted (es.map some) accum hd)
    · rw [List.filterMap_cons_some hdoc] at emits ⊢
      have hrest := ih decodes.tail fun d hd => emits d (List.mem_cons_of_mem doc hd)
      obtain ⟨v, vs, hv⟩ := List.exists_cons_of_ne_nil (emits doc List.mem_cons_self)
      have hnext := next_emits view (es.map some) accum hdoc hv
      rw [List.flatMap_cons, hv, reduced_append]
      exact (drains_mapped (v :: vs) (hrest _)).of_next_eq hnext

/-- A live document that emits nothing ends the view with an error. -/
theorem drains_error {es : List (List UInt8 × List UInt8)} (decodes : Decodes host heap es)
    (silent : ∃ doc ∈ es.filterMap (liveDoc host heap), emitted view doc = []) :
    ∃ vs, ∀ accum, Drains host view heap ⟨⟨es.map some⟩, accum, []⟩ vs .error none := by
  induction es with
  | nil => simp at silent
  | cons e es ih =>
    rcases decodes.head with ⟨hd, hnone⟩ | ⟨doc, hdoc⟩
    · rw [List.filterMap_cons_none hnone] at silent
      obtain ⟨vs, hvs⟩ := ih decodes.tail silent
      exact ⟨vs, fun accum => (hvs accum).of_next_eq (next_deleted (es.map some) accum hd)⟩
    · rw [List.filterMap_cons_some hdoc] at silent
      cases hv : emitted view doc with
      | nil =>
        have hnext := fun accum => next_live view (es.map some) accum hdoc
        rw [hv] at hnext
        exact ⟨[], fun accum => .stop (hnext accum) (by decide)⟩
      | cons v vs =>
        obtain ⟨d, hd, hempty⟩ := silent
        rcases List.mem_cons.mp hd with rfl | hd
        · rw [hv] at hempty
          cases hempty
        · obtain ⟨ws, hws⟩ := ih decodes.tail ⟨d, hd, hempty⟩
          exact ⟨v :: vs ++ ws, fun accum => (drains_mapped (v :: vs) (hws _)).of_next_eq
            (next_emits view (es.map some) accum hdoc hv)⟩

theorem laDbView_cursor (s : BdbStore) :
    laDbView s = some ⟨⟨(seqDb s).map some⟩, none, []⟩ := rfl

/-- A view delivers everything its map emits, and then the end, exactly when every live
document emits something. -/
theorem view_delivers_iff (host : LaHost) (view : LaView) (heap : CString → Memory)
    (s : BdbStore) (decodes : Decodes host heap (seqDb s)) :
    DeliversAll host view heap s ↔ ∀ doc ∈ liveDocs host heap s, emitted view doc ≠ [] := by
  constructor
  · rintro ⟨it, value, hit, hdrains⟩ doc hdoc hempty
    obtain rfl := Option.some.inj ((laDbView_cursor s).symm.trans hit)
    obtain ⟨vs, hvs⟩ := drains_error decodes ⟨doc, hdoc, hempty⟩
    obtain ⟨_, hr⟩ := drains_deterministic hdrains (hvs none)
    cases hr
  · exact fun emits => ⟨_, _, laDbView_cursor s, drains_all decodes emits none⟩

end Facts

section Runs
private def bracesHost : LaHost := ⟨emptyObjectCodec, ⟨fun _ => zeroRev, fun _ => []⟩, none⟩

/-- A store with one live document, the empty object. -/
private def oneDocument : BdbStore where
  db := AList.insert (CString.ofBytes [97])
    ((⟨1, 1, false, 0, zeroRev⟩ : LaStorageObjectHeader).bytes ++ [123, 125]) ∅
  seqNext := 2

theorem oneDocument_decodes : Decodes bracesHost (fun _ _ => 0) (seqDb oneDocument) := by
  decide +kernel

/-- The texts `{}` and `{"a": 1}`. -/
private def twoTexts : CodecLib where
  dump := emptyObjectCodec.dump
  loadb := fun text =>
    if text = [123, 125] then some (.object [])
    else if text = [123, 34, 97, 34, 58, 32, 49, 125] then
      some (.object [(CString.ofBytes [97], .integer 1)])
    else none

private def record (seq : UInt64) (deleted : Bool) (text : List UInt8) : List UInt8 :=
  (⟨seq, 1, deleted, 0, zeroRev⟩ : LaStorageObjectHeader).bytes ++ text

/-- A document, a deleted one, and another one that was written before both. -/
private def threeRecords : BdbStore where
  db := ((AList.insert (CString.ofBytes [97]) (record 2 false [123, 125]) ∅).insert
    (CString.ofBytes [98]) (record 3 true [])).insert (CString.ofBytes [99])
    (record 1 false [123, 34, 97, 34, 58, 32, 49, 125])
  seqNext := 4

/-- A map function that emits a document and its size, and NULL in between. -/
private def emitsTwice (doc : LaCodecValue) : List (Option LaCodecValue) :=
  [some doc, none, some (.integer (Int64.ofNat doc.laCodecObjectSize))]

theorem view_delivers_document :
    DeliversAll ⟨twoTexts, ⟨fun _ => zeroRev, fun _ => []⟩, none⟩ ⟨some emitsTwice, none⟩
      (fun _ _ => 0) threeRecords := by
  refine (view_delivers_iff _ _ _ _ (by decide +kernel)).mpr fun doc _ silent => ?_
  cases silent

/-- With a map function that emits nothing for it, the view ends with an error. -/
theorem silent_view_not_delivered :
    Decodes bracesHost (fun _ _ => 0) (seqDb oneDocument) ∧
    ¬ DeliversAll bracesHost ⟨some fun _ => [], none⟩ (fun _ _ => 0) oneDocument := by
  refine ⟨oneDocument_decodes, ?_⟩
  rintro ⟨it, value, hit, hdrains⟩
  obtain rfl := Option.some.inj ((laDbView_cursor oneDocument).symm.trans hit)
  have next : laViewIteratorNext bracesHost ⟨some fun _ => [], none⟩ (fun _ _ => 0)
      ⟨⟨(seqDb oneDocument).map some⟩, none, []⟩ = (.error, none, ⟨⟨[]⟩, none, []⟩) := rfl
  have herror : Drains bracesHost ⟨some fun _ => [], none⟩ (fun _ _ => 0)
      ⟨⟨(seqDb oneDocument).map some⟩, none, []⟩ [] .error none :=
    .stop next (by decide)
  obtain ⟨_, hr⟩ := drains_deterministic hdrains herror
  cases hr

end Runs

end ViewIteration
