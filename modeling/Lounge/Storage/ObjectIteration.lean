import Lounge.Storage.ObjectStore

/-!
# Iterating over a store

What a caller of `iterator_next` sees until it stops delivering, for the iterator of any
driver. `cursor` builds an iterator from what its coming calls deliver.
-/

namespace ObjectIteration
open ObjectStore

variable {ι ε : Type} (next : ι → LaStorageObjectIteratorResult × Option LaStorageObject × ι)

/-- Calling `iterator_next` until it does not deliver: the objects and the last result. -/
inductive Iterates : ι → List LaStorageObject → LaStorageObjectIteratorResult → Prop
  | stop {it it' : ι} {result : LaStorageObjectIteratorResult} {obj : Option LaStorageObject}
      (here : next it = (result, obj, it')) (last : result ≠ .gotNext) : Iterates it [] result
  | more {it it' : ι} {obj : LaStorageObject} {objs : List LaStorageObject}
      {result : LaStorageObjectIteratorResult} (here : next it = (.gotNext, some obj, it'))
      (rest : Iterates it' objs result) : Iterates it (obj :: objs) result

/-- There is an iterator, and to its end it yields exactly these keys, each once. -/
def Feeds (opened : Option ι) (keys : List CString) : Prop :=
  ∃ it objs, opened = some it ∧ Iterates next it objs .iterEnd ∧
    (objs.map LaStorageObject.key).Nodup ∧
    ∀ key, key ∈ objs.map LaStorageObject.key ↔ key ∈ keys

section Cursor
variable {next} (cursor : List ε → ι) (make : ε → LaStorageObject)
  (ends : next (cursor []) = (.iterEnd, none, cursor []))
  (delivers : ∀ e es, next (cursor (e :: es)) = (.gotNext, some (make e), cursor es))

include ends delivers

theorem iterates_cursor (es : List ε) :
    Iterates next (cursor es) (es.map make) .iterEnd := by
  induction es with
  | nil => exact .stop ends (by decide)
  | cons e rest ih => exact .more (delivers e rest) ih

/-- There is one way to iterate. -/
theorem iterates_cursor_eq {es : List ε} {objs : List LaStorageObject}
    {result : LaStorageObjectIteratorResult} (walk : Iterates next (cursor es) objs result) :
    objs = es.map make := by
  induction es generalizing objs with
  | nil =>
    cases walk with
    | stop here last => rfl
    | more here rest =>
      rw [ends] at here
      cases here
  | cons e es ih =>
    cases walk with
    | stop here last =>
      rw [delivers] at here
      cases here
      exact absurd rfl last
    | more here rest =>
      rw [delivers] at here
      cases here
      rw [List.map_cons, ih rest]

theorem feeds_cursor {es : List ε} {keys : List CString} :
    Feeds next (some (cursor es)) keys ↔
      (es.map fun e => (make e).key).Nodup ∧
        ∀ key, key ∈ (es.map fun e => (make e).key) ↔ key ∈ keys := by
  have mapped : (es.map make).map LaStorageObject.key = es.map fun e => (make e).key :=
    List.map_map
  constructor
  · rintro ⟨it, objs, opened, walk, once, all⟩
    cases opened
    rw [iterates_cursor_eq cursor make ends delivers walk, mapped] at once all
    exact ⟨once, all⟩
  · rintro ⟨once, all⟩
    refine ⟨_, _, rfl, iterates_cursor cursor make ends delivers es, ?_, ?_⟩
    · rw [mapped]
      exact once
    · rw [mapped]
      exact all

end Cursor

end ObjectIteration
