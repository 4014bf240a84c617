import Lounge.Lib.Runs

/-!
# Processes that call a shared store

A process is a tree of calls: it waits for the reply to a call and goes on from
there. Alone on a store it runs through; next to other clients each of its calls
is one move, and anything may happen to the store in between.
-/

namespace Process
variable {κ σ α β : Type} {ρ : κ → Type}

/-- `trap` is a process that crashed. -/
inductive Proc (κ : Type) (ρ : κ → Type) (α : Type) where
  | done (a : α)
  | trap
  | call (c : κ) (k : ρ c → Proc κ ρ α)

/-- How a store answers a call; `none` crashes the caller. -/
abbrev Server (κ : Type) (ρ : κ → Type) (σ : Type) := (c : κ) → σ → Option (ρ c × σ)

namespace Proc

def bind : Proc κ ρ α → (α → Proc κ ρ β) → Proc κ ρ β
  | .done a, f => f a
  | .trap, _ => .trap
  | .call c k, f => .call c fun r => (k r).bind f

def map (f : α → β) (p : Proc κ ρ α) : Proc κ ρ β := p.bind fun a => .done (f a)

/-- Every call the process may make, whatever the replies, satisfies `P`. -/
def AllCalls (P : κ → Prop) : Proc κ ρ α → Prop
  | .done _ => True
  | .trap => True
  | .call c k => P c ∧ ∀ r, (k r).AllCalls P

/-- Every value it may return, whatever the replies, satisfies `P`. -/
def AllResults (P : α → Prop) : Proc κ ρ α → Prop
  | .done a => P a
  | .trap => True
  | .call _ k => ∀ r, (k r).AllResults P

theorem allCalls_call {P : κ → Prop} {c : κ} {k : ρ c → Proc κ ρ α} (here : P c)
    (rest : ∀ r, (k r).AllCalls P) : (Proc.call c k).AllCalls P := ⟨here, rest⟩

theorem allResults_call {P : α → Prop} {c : κ} {k : ρ c → Proc κ ρ α}
    (rest : ∀ r, (k r).AllResults P) : (Proc.call c k).AllResults P := rest

theorem AllResults.mono {P Q : α → Prop} {p : Proc κ ρ α} (all : p.AllResults P)
    (weaker : ∀ a, P a → Q a) : p.AllResults Q := by
  induction p with
  | done a => exact weaker a all
  | trap => trivial
  | call c k ih => exact fun r => ih r (all r)

theorem allResults_map {P : β → Prop} {f : α → β} {p : Proc κ ρ α}
    (all : p.AllResults fun a => P (f a)) : (p.map f).AllResults P := by
  induction p with
  | done a => exact all
  | trap => trivial
  | call c k ih => exact fun r => ih r (all r)

theorem AllCalls.mono {P Q : κ → Prop} {p : Proc κ ρ α} (all : p.AllCalls P)
    (weaker : ∀ c, P c → Q c) : p.AllCalls Q := by
  induction p with
  | done a => trivial
  | trap => trivial
  | call c k ih => exact ⟨weaker c all.1, fun r => ih r (all.2 r)⟩

theorem allCalls_true (p : Proc κ ρ α) : p.AllCalls fun _ => True := by
  induction p with
  | done a => trivial
  | trap => trivial
  | call c k ih => exact ⟨trivial, ih⟩

theorem AllCalls.bind {P : κ → Prop} {p : Proc κ ρ α} {f : α → Proc κ ρ β}
    (first : p.AllCalls P) (rest : ∀ a, (f a).AllCalls P) : (p.bind f).AllCalls P := by
  induction p with
  | done a => exact rest a
  | trap => trivial
  | call c k ih => exact ⟨first.1, fun r => ih r (first.2 r)⟩

end Proc

section Alone
variable (serve : Server κ ρ σ)

/-- The process run without interference: what it returns, unless it crashes. -/
def run : Proc κ ρ α → σ → Option (α × σ)
  | .done a, s => some (a, s)
  | .trap, _ => none
  | .call c k, s =>
    match serve c s with
    | none => none
    | some (r, s') => run (k r) s'

/-- The calls made in that run, each with the store around it and whether it returned. -/
def trace : Proc κ ρ α → σ → List (Runs.Event σ κ Bool)
  | .done _, _ => []
  | .trap, _ => []
  | .call c k, s =>
    match serve c s with
    | none => [⟨s, c, false, s⟩]
    | some (r, s') => ⟨s, c, true, s'⟩ :: trace (k r) s'

variable {serve}

theorem run_bind (p : Proc κ ρ α) (f : α → Proc κ ρ β) (s : σ) :
    run serve (p.bind f) s = (run serve p s).bind fun a => run serve (f a.1) a.2 := by
  induction p generalizing s with
  | done a => rfl
  | trap => rfl
  | call c k ih =>
    simp only [Proc.bind, run]
    cases serve c s with
    | none => rfl
    | some reply => exact ih reply.1 reply.2

theorem trace_bind (p : Proc κ ρ α) (f : α → Proc κ ρ β) (s : σ) :
    trace serve (p.bind f) s =
      trace serve p s ++ (run serve p s).elim [] fun a => trace serve (f a.1) a.2 := by
  induction p generalizing s with
  | done a => rfl
  | trap => rfl
  | call c k ih =>
    simp only [Proc.bind, trace, run]
    cases serve c s with
    | none => rfl
    | some reply => simp only [ih reply.1 reply.2, List.cons_append]

/-- A call of the run crashed and left the store, or the store answered it. -/
theorem served_of_mem_trace {p : Proc κ ρ α} {s : σ} {e : Runs.Event σ κ Bool}
    (he : e ∈ trace serve p s) :
    serve e.input e.before = none ∧ e.after = e.before ∨
      ∃ r, serve e.input e.before = some (r, e.after) := by
  induction p generalizing s with
  | done a => cases he
  | trap => cases he
  | call c k ih =>
    simp only [trace] at he
    cases reply : serve c s with
    | none =>
      rw [reply, List.mem_singleton] at he
      subst he
      exact Or.inl ⟨reply, rfl⟩
    | some answer =>
      rw [reply, List.mem_cons] at he
      rcases he with rfl | he
      · exact Or.inr ⟨answer.1, reply⟩
      · exact ih answer.1 he

/-- Every call of the run satisfies `P`. -/
def AllEvents (serve : Server κ ρ σ) (P : Runs.Event σ κ Bool → Prop) (p : Proc κ ρ α) (s : σ) :
    Prop :=
  ∀ e ∈ trace serve p s, P e

section AllEvents
variable {P : Runs.Event σ κ Bool → Prop}

theorem allEvents_done (a : α) (s : σ) : AllEvents serve P (.done a : Proc κ ρ α) s :=
  fun _ he => by cases he

theorem allEvents_trap (s : σ) : AllEvents serve P (.trap : Proc κ ρ α) s :=
  fun _ he => by cases he

theorem allEvents_call {c : κ} {k : ρ c → Proc κ ρ α} {s : σ}
    (crash : serve c s = none → P ⟨s, c, false, s⟩)
    (reply : ∀ r s', serve c s = some (r, s') →
      P ⟨s, c, true, s'⟩ ∧ AllEvents serve P (k r) s') :
    AllEvents serve P (.call c k) s := by
  intro e he
  simp only [trace] at he
  cases hr : serve c s with
  | none =>
    rw [hr, List.mem_singleton] at he
    exact he ▸ crash hr
  | some answer =>
    obtain ⟨here, rest⟩ := reply answer.1 answer.2 hr
    rw [hr, List.mem_cons] at he
    rcases he with rfl | he
    · exact here
    · exact rest e he

theorem allEvents_bind {p : Proc κ ρ α} {f : α → Proc κ ρ β} {s : σ}
    (first : AllEvents serve P p s)
    (rest : ∀ a s', run serve p s = some (a, s') → AllEvents serve P (f a) s') :
    AllEvents serve P (p.bind f) s := by
  intro e he
  rw [trace_bind, List.mem_append] at he
  rcases he with he | he
  · exact first e he
  · cases hr : run serve p s with
    | none => simp [hr] at he
    | some end_ =>
      rw [hr] at he
      exact rest end_.1 end_.2 hr e he

theorem allEvents_map {p : Proc κ ρ α} {f : α → β} {s : σ} (h : AllEvents serve P p s) :
    AllEvents serve P (p.map f) s :=
  allEvents_bind h fun _ _ _ => allEvents_done _ _

/-- What holds of every call that the process may make holds of those it makes. -/
theorem Proc.AllCalls.allEvents {Q : κ → Prop} {p : Proc κ ρ α} (allowed : p.AllCalls Q) (s : σ) :
    AllEvents serve (fun e => Q e.input) p s := by
  induction p generalizing s with
  | done a => exact allEvents_done a s
  | trap => exact allEvents_trap s
  | call c k ih =>
    exact allEvents_call (fun _ => allowed.1) fun r s' _ =>
      ⟨allowed.1, ih r (allowed.2 r) s'⟩

end AllEvents

theorem trace_map (p : Proc κ ρ α) (f : α → β) (s : σ) :
    trace serve (p.map f) s = trace serve p s := by
  rw [Proc.map, trace_bind]
  cases run serve p s with
  | none => simp
  | some a => simp [trace]

theorem run_map (p : Proc κ ρ α) (f : α → β) (s : σ) :
    run serve (p.map f) s = (run serve p s).map fun a => (f a.1, a.2) := by
  rw [Proc.map, run_bind]
  cases run serve p s <;> rfl

/-- What holds of every value that the process may return holds of the one it returns. -/
theorem Proc.AllResults.of_run {P : α → Prop} {p : Proc κ ρ α} (all : p.AllResults P) {s s' : σ}
    {a : α} (ran : run serve p s = some (a, s')) : P a := by
  induction p generalizing s with
  | done b =>
    cases ran
    exact all
  | trap => cases ran
  | call c k ih =>
    simp only [run] at ran
    cases reply : serve c s with
    | none => simp [reply] at ran
    | some answer =>
      rw [reply] at ran
      exact ih answer.1 (all answer.1) ran

/-- What the replies to its calls keep true of the store, a run keeps true. -/
theorem run_preserves {P : κ → Prop} {Inv : σ → Prop}
    (keeps : ∀ c s r s', P c → serve c s = some (r, s') → Inv s → Inv s') {p : Proc κ ρ α}
    (allowed : p.AllCalls P) {s s' : σ} {a : α} (start : Inv s)
    (ran : run serve p s = some (a, s')) : Inv s' := by
  induction p generalizing s with
  | done b =>
    cases ran
    exact start
  | trap => cases ran
  | call c k ih =>
    obtain ⟨here, rest⟩ := allowed
    simp only [run] at ran
    cases reply : serve c s with
    | none => simp [reply] at ran
    | some answer =>
      rw [reply] at ran
      exact ih answer.1 (rest answer.1) (keeps c s answer.1 answer.2 here reply start) ran

end Alone

section Shared
variable (serve : Server κ ρ σ)

/-- One move of a process on the store as it is then. -/
def advance (s : σ) : Proc κ ρ α → Option κ × σ × Proc κ ρ α
  | .done a => (none, s, .done a)
  | .trap => (none, s, .trap)
  | .call c k =>
    match serve c s with
    | none => (some c, s, .trap)
    | some (r, s') => (some c, s', k r)

variable {serve}

/-- The process stays one of allowed calls, and the call of its move was one. -/
theorem advance_allCalls {P : κ → Prop} {p : Proc κ ρ α} (allowed : p.AllCalls P) (s : σ) :
    (advance serve s p).2.2.AllCalls P ∧ ∀ c, (advance serve s p).1 = some c → P c := by
  cases p with
  | done a => exact ⟨trivial, fun c h => by cases h⟩
  | trap => exact ⟨trivial, fun c h => by cases h⟩
  | call c k =>
    simp only [advance]
    cases serve c s with
    | none => exact ⟨trivial, fun _ h => Option.some.inj h ▸ allowed.1⟩
    | some reply => exact ⟨allowed.2 reply.1, fun _ h => Option.some.inj h ▸ allowed.1⟩

end Shared

end Process
