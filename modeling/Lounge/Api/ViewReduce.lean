import Lounge.Api.ViewIteration
import Lounge.Lib.Runs

/-!
# Reducing a view

`la_view_iterator_next` keeps the reduction of what it has handed out in its iterator and
returns it at the end. A run of calls is looked at with the map function and the memory that
each call meets, as a map function may depend on its baton.
-/

namespace ViewReduce
open FlatMemory ObjectStore CodecValue BdbDriver LoungeApi ViewIteration Runs

/-- A reduce function; it sees NULL before its first value. -/
abbrev Reduce := Option LaCodecValue → LaCodecValue → Option LaCodecValue

/-- What one call meets. -/
structure ViewCall where
  map : Option (LaCodecValue → List (Option LaCodecValue))
  heap : CString → Memory

def ViewCall.view (c : ViewCall) (reduce : Reduce) : LaView := ⟨c.map, some reduce⟩

/-- A call of `la_view_iterator_next` with a value pointer. -/
def viewStep (host : LaHost) (reduce : Reduce) (it : LaViewIterator) (c : ViewCall) :
    (LaViewIteratorResult × Option LaCodecValue) × LaViewIterator :=
  let ret := laViewIteratorNext host (c.view reduce) c.heap it
  ((ret.1, ret.2.1), ret.2.2)

abbrev ViewEvent := Event LaViewIterator ViewCall (LaViewIteratorResult × Option LaCodecValue)

/-- The iterator of `la_db_view` over a cursor whose coming calls deliver this. -/
def freshView (cursor : List (Option (List UInt8 × List UInt8))) : LaViewIterator :=
  ⟨⟨cursor⟩, none, []⟩

theorem laDbView_fresh (s : BdbStore) : laDbView s = some (freshView ((seqDb s).map some)) :=
  laDbView_cursor s

/-- The value that a call handed out. -/
def returnedValue (e : ViewEvent) : Option LaCodecValue :=
  if e.output.1 = .gotNext then e.output.2 else none

/-- The values handed out, in order. -/
def returned (es : List ViewEvent) : List LaCodecValue := es.filterMap returnedValue

/-- What a call emits into the queue: nothing as long as there is something in it. -/
def queuedBy (host : LaHost) (reduce : Reduce) (it : LaViewIterator) (c : ViewCall) :
    List LaCodecValue :=
  if it.mapped.isEmpty then
    match fillMapped host (c.view reduce) c.heap it.it.cursor with
    | .parsed mapped _ => mapped
    | .stop _ _ => []
  else []

/-- The values emitted in a run, in order. -/
def emittedIn (host : LaHost) (reduce : Reduce) (es : List ViewEvent) : List LaCodecValue :=
  es.flatMap fun e => queuedBy host reduce e.before e.input

/-- `reduce(.. reduce(reduce(NULL, v_1), v_2) .., v_n)`. -/
def reduction (reduce : Reduce) (vs : List LaCodecValue) : Option LaCodecValue :=
  vs.foldl reduce none

/-- The loop stops at an end or at an error only. -/
theorem fillMapped_stop {host : LaHost} {view : LaView} {heap : CString → Memory}
    {cursor rest : List (Option (List UInt8 × List UInt8))} {result : LaViewIteratorResult}
    (stopped : fillMapped host view heap cursor = .stop result rest) :
    result = .iterEnd ∨ result = .error := by
  fun_induction fillMapped host view heap cursor with
  | case1 =>
    cases stopped
    exact Or.inl rfl
  | case2 =>
    cases stopped
    exact Or.inr rfl
  | case3 e others deleted ih => exact ih stopped
  | case4 =>
    cases stopped
    exact Or.inr rfl
  | case5 => cases stopped

section Steps
variable {host : LaHost} {reduce : Reduce}

/-- Handing out the first queued value reduces it, and nothing else. -/
theorem takeMapped_cases (reduce : Reduce) (c : ViewCall) (it : LaViewIterator) :
    (∃ v rest, it.mapped = v :: rest ∧ takeMapped (c.view reduce) it =
      (.gotNext, some v, { it with accum := reduce it.accum v, mapped := rest })) ∨
    it.mapped = [] ∧ takeMapped (c.view reduce) it = (.error, none, it) := by
  cases queue : it.mapped with
  | nil => exact Or.inr ⟨rfl, by simp [takeMapped, queue]⟩
  | cons v rest => exact Or.inl ⟨v, rest, rfl, by simp [takeMapped, queue, ViewCall.view]⟩

/-- What a call can do: hand out the first of the queued and the newly emitted values, reduced,
or, when there is none, fail or end with the reduction. -/
theorem viewStep_cases (host : LaHost) (reduce : Reduce) (it : LaViewIterator) (c : ViewCall) :
    (∃ v, (viewStep host reduce it c).1 = (.gotNext, some v) ∧
      it.mapped ++ queuedBy host reduce it c = v :: (viewStep host reduce it c).2.mapped ∧
      (viewStep host reduce it c).2.accum = reduce it.accum v) ∨
    (viewStep host reduce it c).1.1 ≠ .gotNext ∧
      it.mapped ++ queuedBy host reduce it c = [] ∧ (viewStep host reduce it c).2.mapped = [] ∧
      (viewStep host reduce it c).2.accum = it.accum ∧
      ((viewStep host reduce it c).1.1 = .iterEnd →
        (viewStep host reduce it c).1.2 = it.accum) := by
  by_cases empty : it.mapped.isEmpty = true
  · have nothing : it.mapped = [] := List.isEmpty_iff.mp empty
    simp only [viewStep, laViewIteratorNext, queuedBy, if_pos empty]
    cases filled : fillMapped host (c.view reduce) c.heap it.it.cursor with
    | stop result rest =>
      right
      rcases fillMapped_stop filled with rfl | rfl
      · simp [nothing]
      · simp [nothing]
    | parsed mapped rest =>
      simp only [nothing, List.nil_append]
      rcases takeMapped_cases reduce c { it with it := ⟨rest⟩, mapped := mapped } with
        ⟨v, others, queue, took⟩ | ⟨queue, took⟩
      · left
        rw [took]
        exact ⟨v, rfl, queue, rfl⟩
      · right
        rw [took]
        exact ⟨by simp, queue, queue, rfl, by simp⟩
  · simp only [viewStep, laViewIteratorNext, queuedBy, if_neg empty, List.append_nil]
    rcases takeMapped_cases reduce c it with ⟨v, others, queue, took⟩ | ⟨queue, -⟩
    · left
      rw [took]
      exact ⟨v, rfl, queue, rfl⟩
    · exact absurd (List.isEmpty_iff.mpr queue) empty

/-- After every call the accumulator is the reduction of what was handed out, and what was
emitted besides is queued. -/
structure Reduced (host : LaHost) (reduce : Reduce) (it : LaViewIterator) (past : List ViewEvent) :
    Prop where
  accum : it.accum = reduction reduce (returned past)
  queue : emittedIn host reduce past = returned past ++ it.mapped

theorem reduced_step {it : LaViewIterator} {past : List ViewEvent} (c : ViewCall)
    (reduced : Reduced host reduce it past) :
    Reduced host reduce (viewStep host reduce it c).2
      (past ++ [event (viewStep host reduce) it c]) := by
  have emitted_snoc : emittedIn host reduce (past ++ [event (viewStep host reduce) it c]) =
      returned past ++ (it.mapped ++ queuedBy host reduce it c) := by
    rw [emittedIn, List.flatMap_append, ← emittedIn, reduced.queue, List.flatMap_singleton,
      List.append_assoc]
    rfl
  have returned_snoc : returned (past ++ [event (viewStep host reduce) it c]) =
      returned past ++ (returnedValue (event (viewStep host reduce) it c)).toList := by
    rw [returned, List.filterMap_append, ← returned]
    cases value : returnedValue (event (viewStep host reduce) it c) <;> simp [value]
  rcases viewStep_cases host reduce it c with ⟨v, output, queue, accum⟩ |
    ⟨other, nothing, queue, accum, -⟩
  · have value : returnedValue (event (viewStep host reduce) it c) = some v := by
      simp [returnedValue, event, output]
    constructor
    · rw [accum, reduced.accum, returned_snoc, value, Option.toList_some, reduction, reduction,
        List.foldl_append]
      rfl
    · rw [emitted_snoc, returned_snoc, value, queue, Option.toList_some, List.append_assoc,
        List.singleton_append]
  · have value : returnedValue (event (viewStep host reduce) it c) = none := by
      simp [returnedValue, event, other]
    constructor
    · rw [accum, reduced.accum, returned_snoc, value, Option.toList_none, List.append_nil]
    · rw [emitted_snoc, returned_snoc, value, nothing, queue, Option.toList_none, List.append_nil,
        List.append_nil]

/-- A value that is queued or emitted by the call is handed out and reduced by it. -/
theorem viewStep_hands {it : LaViewIterator} {c : ViewCall} {v : LaCodecValue}
    {rest : List LaCodecValue} (waits : it.mapped ++ queuedBy host reduce it c = v :: rest) :
    (viewStep host reduce it c).1 = (.gotNext, some v) ∧
      (viewStep host reduce it c).2.accum = reduce it.accum v ∧
      (viewStep host reduce it c).2.mapped = rest := by
  rcases viewStep_cases host reduce it c with ⟨v', output, queue, accum⟩ | ⟨-, nothing, -⟩
  · obtain ⟨rfl, rfl⟩ := List.cons.inj (waits.symm.trans queue)
    exact ⟨output, accum, rfl⟩
  · rw [nothing] at waits
    cases waits

/-- The same of a whole run. -/
theorem reduced_run (host : LaHost) (reduce : Reduce)
    (cursor : List (Option (List UInt8 × List UInt8))) (calls : List ViewCall) :
    Reduced host reduce (final (viewStep host reduce) (freshView cursor) calls)
      (events (viewStep host reduce) (freshView cursor) calls) :=
  recorded (Reduced host reduce) (fun _ => True) (fun _ _ c reduced _ => reduced_step c reduced)
    ⟨rfl, rfl⟩ fun _ _ => trivial

end Steps

/-- The end of a view returns the left fold of the reduce function over what was handed out
before it. At any time the values handed out are reduced, each once, and the values emitted
besides them wait in the queue. The first of what waits is what the next call hands out and
reduces. -/
theorem reduce_left_fold (host : LaHost) (reduce : Reduce)
    (cursor : List (Option (List UInt8 × List UInt8))) (calls : List ViewCall) :
    (∀ earlier e later,
      events (viewStep host reduce) (freshView cursor) calls = earlier ++ e :: later →
      e.output.1 = .iterEnd → e.output.2 = reduction reduce (returned earlier)) ∧
    (final (viewStep host reduce) (freshView cursor) calls).accum =
      reduction reduce (returned (events (viewStep host reduce) (freshView cursor) calls)) ∧
    emittedIn host reduce (events (viewStep host reduce) (freshView cursor) calls) =
      returned (events (viewStep host reduce) (freshView cursor) calls) ++
        (final (viewStep host reduce) (freshView cursor) calls).mapped ∧
    (∀ e ∈ events (viewStep host reduce) (freshView cursor) calls, ∀ v rest,
      e.before.mapped ++ queuedBy host reduce e.before e.input = v :: rest →
      e.output = (.gotNext, some v) ∧ e.after.accum = reduce e.before.accum v ∧
        e.after.mapped = rest) := by
  have whole := reduced_run host reduce cursor calls
  refine ⟨?_, whole.accum, whole.queue, ?_⟩
  · intro earlier e later run ended
    obtain ⟨before, c, rfl, rfl⟩ := events_split run
    have here := (reduced_run host reduce cursor before).accum
    rcases viewStep_cases host reduce (final (viewStep host reduce) (freshView cursor) before) c
      with ⟨v, output, -⟩ | ⟨-, -, -, -, value⟩
    · rw [event, output] at ended
      cases ended
    · exact (value ended).trans here
  · intro e he v rest waits
    rw [event_of_mem he] at waits ⊢
    exact viewStep_hands waits

/-- How often a document was emitted. -/
private def countReduced (accum : Option LaCodecValue) (_ : LaCodecValue) : Option LaCodecValue :=
  match accum with
  | some (.integer n) => some (.integer (n + 1))
  | _ => some (.integer 1)

/-- A document that is emitted twice, reduced by counting. -/
example :
    outputs (viewStep ⟨emptyObjectCodec, ⟨fun _ => zeroRev, fun _ => []⟩, none⟩ countReduced)
      (freshView [some ([97], (⟨1, 1, false, 0, zeroRev⟩ : LaStorageObjectHeader).bytes ++
        [123, 125])])
      (List.replicate 3 ⟨some fun doc => [some doc, some doc], fun _ _ => 0⟩) =
    [(.gotNext, some (.object [])), (.gotNext, some (.object [])),
      (.iterEnd, some (.integer 2))] := rfl

end ViewReduce
