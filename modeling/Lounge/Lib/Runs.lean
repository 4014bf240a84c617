import Mathlib.Data.List.Basic
import Mathlib.Order.Basic
import Mathlib.Tactic.Common

/-!
# Runs of a step function

A system that answers inputs one after the other. A run is kept as the list of
its events, each with the state before and after it, so a property of a run is a
property of its events.
-/

namespace Runs
variable {σ ι ο : Type*}

structure Event (σ ι ο : Type*) where
  before : σ
  input : ι
  output : ο
  after : σ

/-- The event of one input. -/
def event (step : σ → ι → ο × σ) (s : σ) (i : ι) : Event σ ι ο :=
  ⟨s, i, (step s i).1, (step s i).2⟩

def events (step : σ → ι → ο × σ) : σ → List ι → List (Event σ ι ο)
  | _, [] => []
  | s, i :: rest => event step s i :: events step (step s i).2 rest

/-- The state a run ends in. -/
def final (step : σ → ι → ο × σ) : σ → List ι → σ
  | s, [] => s
  | s, i :: rest => final step (step s i).2 rest

theorem input_mem {step : σ → ι → ο × σ} {s : σ} {is : List ι} {e : Event σ ι ο}
    (he : e ∈ events step s is) : e.input ∈ is := by
  induction is generalizing s with
  | nil => cases he
  | cons i rest ih =>
    rcases List.mem_cons.mp he with rfl | he
    · exact List.mem_cons_self
    · exact List.mem_cons_of_mem i (ih he)

theorem inputs_events (step : σ → ι → ο × σ) (s : σ) (is : List ι) :
    (events step s is).map Event.input = is := by
  induction is generalizing s with
  | nil => rfl
  | cons i rest ih => exact congrArg (i :: ·) (ih (step s i).2)

/-- An event of a run is a step of the function. -/
theorem event_of_mem {step : σ → ι → ο × σ} {s : σ} {is : List ι} {e : Event σ ι ο}
    (he : e ∈ events step s is) : e = event step e.before e.input := by
  induction is generalizing s with
  | nil => cases he
  | cons i rest ih =>
    rcases List.mem_cons.mp he with rfl | he
    · rfl
    · exact ih he

/-- An event of a run is the one after the run of the inputs before it. -/
theorem events_split {step : σ → ι → ο × σ} {s : σ} {is : List ι}
    {earlier later : List (Event σ ι ο)}
    {e : Event σ ι ο} (h : events step s is = earlier ++ e :: later) :
    ∃ before i, events step s before = earlier ∧ e = event step (final step s before) i := by
  induction earlier generalizing s is with
  | nil =>
    cases is with
    | nil => cases h
    | cons i rest => exact ⟨[], i, rfl, (List.cons.inj h).1.symm⟩
  | cons first earlier ih =>
    cases is with
    | nil => cases h
    | cons i rest =>
      obtain ⟨head, tail⟩ := List.cons.inj h
      obtain ⟨before, j, past, here⟩ := ih tail
      exact ⟨i :: before, j, by rw [events, past, head], here⟩

/-- An invariant that each event of a run preserves, as long as the event is `Fair`, holds
throughout the run and at its end. -/
theorem preserved {step : σ → ι → ο × σ} (Inv : σ → Prop) {Fair : Event σ ι ο → Prop}
    (keeps : ∀ s i, Inv s → Fair (event step s i) → Inv (step s i).2) {s : σ} {is : List ι}
    (start : Inv s) (fair : ∀ e ∈ events step s is, Fair e) :
    (∀ e ∈ events step s is, Inv e.before ∧ Inv e.after) ∧ Inv (final step s is) := by
  induction is generalizing s with
  | nil => exact ⟨fun e he => absurd he List.not_mem_nil, start⟩
  | cons i rest ih =>
    have next : Inv (step s i).2 := keeps s i start (fair _ List.mem_cons_self)
    obtain ⟨hrest, hend⟩ := ih next fun e he => fair e (List.mem_cons_of_mem _ he)
    refine ⟨fun e he => ?_, hend⟩
    rcases List.mem_cons.mp he with rfl | he
    · exact ⟨start, next⟩
    · exact hrest e he

/-- The same of a property that every step preserves. -/
theorem invariant {step : σ → ι → ο × σ} (Inv : σ → Prop)
    (keeps : ∀ s i, Inv s → Inv (step s i).2) {s : σ} (is : List ι) (start : Inv s) :
    (∀ e ∈ events step s is, Inv e.before ∧ Inv e.after) ∧ Inv (final step s is) := by
  have always : ∀ e ∈ events step s is, True := fun _ _ => trivial
  exact preserved Inv (fun s i inv _ => keeps s i inv) start always

/-- A measure that no `Fair` event lowers and every selected one raises: the selected events
find it at ever greater values. -/
theorem increasing {ν : Type*} [Preorder ν] {step : σ → ι → ο × σ} (measure : σ → ν)
    (selected : Event σ ι ο → Bool) {Fair : Event σ ι ο → Prop}
    (keeps : ∀ s i, Fair (event step s i) → measure s ≤ measure (step s i).2)
    (raises : ∀ s i, Fair (event step s i) → selected (event step s i) = true →
      measure s < measure (step s i).2)
    {s : σ} {is : List ι} (fair : ∀ e ∈ events step s is, Fair e) :
    (∀ e ∈ events step s is, measure s ≤ measure e.before) ∧
      ((events step s is).filter selected).Pairwise
        fun e f => measure e.before < measure f.before := by
  induction is generalizing s with
  | nil => exact ⟨fun e he => absurd he List.not_mem_nil, .nil⟩
  | cons i rest ih =>
    have first := fair _ List.mem_cons_self
    obtain ⟨lower, sorted⟩ := ih fun e he => fair e (List.mem_cons_of_mem _ he)
    constructor
    · intro e he
      rcases List.mem_cons.mp he with rfl | he
      · exact le_refl _
      · exact le_trans (keeps s i first) (lower e he)
    · rw [events]
      cases hsel : selected (event step s i) with
      | false =>
        rw [List.filter_cons_of_neg (by simp [hsel])]
        exact sorted
      | true =>
        rw [List.filter_cons_of_pos hsel]
        refine List.Pairwise.cons (fun f hf => ?_) sorted
        exact lt_of_lt_of_le (raises s i first hsel) (lower f (List.mem_filter.mp hf).1)

/-- A relation between the state and the events so far that every `Fair` event keeps holds at
the end of a run, of all its events. -/
theorem recorded {step : σ → ι → ο × σ} (Rel : σ → List (Event σ ι ο) → Prop)
    (Fair : Event σ ι ο → Prop)
    (keeps : ∀ s past i, Rel s past → Fair (event step s i) →
      Rel (step s i).2 (past ++ [event step s i]))
    {s : σ} {is : List ι} (start : Rel s []) (fair : ∀ e ∈ events step s is, Fair e) :
    Rel (final step s is) (events step s is) := by
  have grown : ∀ past, Rel s past → Rel (final step s is) (past ++ events step s is) := by
    clear start
    induction is generalizing s with
    | nil =>
      intro past here
      rw [events, List.append_nil]
      exact here
    | cons i rest ih =>
      intro past here
      have next := keeps s past i here (fair _ List.mem_cons_self)
      have := ih (fun e he => fair e (List.mem_cons_of_mem _ he)) _ next
      rwa [List.append_assoc, List.singleton_append] at this
  exact grown [] start

/-- Inputs whose events leave the state can be left out of a run. -/
theorem final_filter {step : σ → ι → ο × σ} {selected : Event σ ι ο → Bool}
    (idle : ∀ s i, selected (event step s i) = false → (step s i).2 = s) (s : σ) (is : List ι) :
    final step s (((events step s is).filter selected).map Event.input) = final step s is := by
  induction is generalizing s with
  | nil => rfl
  | cons i rest ih =>
    rw [events]
    cases hsel : selected (event step s i) with
    | true =>
      rw [List.filter_cons_of_pos hsel]
      exact ih (step s i).2
    | false =>
      rw [List.filter_cons_of_neg (by simp [hsel])]
      have rest_only := ih (step s i).2
      rw [idle s i hsel] at rest_only ⊢
      rwa [final, idle s i hsel]

/-- The outputs of a run, in order. -/
def outputs (step : σ → ι → ο × σ) (s : σ) (is : List ι) : List ο :=
  (events step s is).map Event.output

/-- Two systems on the same inputs whose states stay related answer alike, as long as a `Fair`
event of the first keeps the relation and gives the second one's answer from a related state. -/
theorem outputs_refined {τ ο' : Type*} {step : σ → ι → ο × σ} {step' : τ → ι → ο' × τ}
    (Rel : σ → τ → Prop) (answer : ο' → ο) {Fair : Event σ ι ο → Prop}
    (alike : ∀ s t i, Rel s t → Fair (event step s i) →
      (step s i).1 = answer (step' t i).1 ∧ Rel (step s i).2 (step' t i).2)
    {s : σ} {t : τ} {is : List ι} (start : Rel s t) (fair : ∀ e ∈ events step s is, Fair e) :
    outputs step s is = (outputs step' t is).map answer ∧
      Rel (final step s is) (final step' t is) := by
  induction is generalizing s t with
  | nil => exact ⟨rfl, start⟩
  | cons i rest ih =>
    obtain ⟨same, next⟩ := alike s t i start (fair _ List.mem_cons_self)
    obtain ⟨answers, related⟩ := ih next fun e he => fair e (List.mem_cons_of_mem _ he)
    refine ⟨?_, related⟩
    calc outputs step s (i :: rest) = (step s i).1 :: outputs step (step s i).2 rest := rfl
      _ = (outputs step' t (i :: rest)).map answer := by rw [same, answers]; rfl

/-- The same of two runs of one system. -/
theorem outputs_congr {step : σ → ι → ο × σ} (Rel : σ → σ → Prop) {Fair : Event σ ι ο → Prop}
    (alike : ∀ s t i, Rel s t → Fair (event step s i) →
      (step s i).1 = (step t i).1 ∧ Rel (step s i).2 (step t i).2)
    {s t : σ} {is : List ι} (start : Rel s t) (fair : ∀ e ∈ events step s is, Fair e) :
    outputs step s is = outputs step t is ∧ Rel (final step s is) (final step t is) := by
  simpa only [List.map_id] using outputs_refined Rel id alike start fair

/-- What an observer of the events makes of a run. -/
def replay {α : Type*} (update : α → Event σ ι ο → α) (a : α) (es : List (Event σ ι ο)) : α :=
  es.foldl update a

/-- A relation between the state and the observer's picture of it that every `Fair` event
keeps holds at the end of a run. -/
theorem simulated {α : Type*} {step : σ → ι → ο × σ} {update : α → Event σ ι ο → α}
    (Rel : σ → α → Prop) {Fair : Event σ ι ο → Prop}
    (keeps : ∀ s a i, Rel s a → Fair (event step s i) →
      Rel (step s i).2 (update a (event step s i)))
    {s : σ} {a : α} {is : List ι} (start : Rel s a) (fair : ∀ e ∈ events step s is, Fair e) :
    Rel (final step s is) (replay update a (events step s is)) := by
  induction is generalizing s a with
  | nil => exact start
  | cons i rest ih =>
    exact ih (keeps s a i start (fair _ List.mem_cons_self))
      fun e he => fair e (List.mem_cons_of_mem _ he)

section Keyed
variable {κ ν : Type*} {step : σ → ι → ο × σ} {Fair : Event σ ι ο → Prop} {touches : ι → Option κ}
  {view : σ → κ → ν}

/-- What is seen of a key that no step touches stays. -/
theorem view_untouched
    (frame : ∀ s i k, Fair (event step s i) → touches i ≠ some k → view (step s i).2 k = view s k)
    {s : σ} {is : List ι} (fair : ∀ e ∈ events step s is, Fair e) {k : κ}
    (untouched : ∀ i ∈ is, touches i ≠ some k) : view (final step s is) k = view s k := by
  induction is generalizing s with
  | nil => rfl
  | cons i rest ih =>
    have here := frame s i k (fair _ List.mem_cons_self) (untouched i List.mem_cons_self)
    rw [final, ih (fun e he => fair e (List.mem_cons_of_mem _ he))
      fun j hj => untouched j (List.mem_cons_of_mem _ hj), here]

/-- Where no key is touched twice, a step finds of its key what was there at the start, and
what it leaves stays to the end. -/
theorem view_touched_once
    (frame : ∀ s i k, Fair (event step s i) → touches i ≠ some k → view (step s i).2 k = view s k)
    {s : σ} {is : List ι} (fair : ∀ e ∈ events step s is, Fair e)
    (once : (is.filterMap touches).Nodup) :
    ∀ e ∈ events step s is, ∀ k, touches e.input = some k →
      view e.before k = view s k ∧ view (final step s is) k = view e.after k := by
  induction is generalizing s with
  | nil => exact fun e he => absurd he List.not_mem_nil
  | cons i rest ih =>
    have later : ∀ e ∈ events step (step s i).2 rest, Fair e :=
      fun e he => fair e (List.mem_cons_of_mem _ he)
    have others : (rest.filterMap touches).Nodup := once.sublist
      ((List.sublist_cons_self i rest).filterMap touches)
    have first : ∀ k, touches i = some k → ∀ j ∈ rest, touches j ≠ some k := by
      intro k here j hj again
      rw [List.filterMap_cons_some here, List.nodup_cons] at once
      exact once.1 (List.mem_filterMap.mpr ⟨j, hj, again⟩)
    intro e he k touched
    rcases List.mem_cons.mp he with rfl | he
    · exact ⟨rfl, view_untouched frame later (first k touched)⟩
    · obtain ⟨before, after⟩ := ih later others e he k touched
      refine ⟨?_, after⟩
      rw [before]
      exact frame s i k (fair _ List.mem_cons_self) fun here =>
        first k here e.input (input_mem he) touched

end Keyed

end Runs
