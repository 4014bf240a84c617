import Lounge.Lib.Process

/-!
# Runs that write nothing

Some calls of a process write, the others only look. A process that makes its one write last
is told apart by the first write of its run: without one it is idle, with one the store is
what that write makes of it.
-/

namespace IdleRuns
open Process
variable {κ σ α β : Type} {ρ : κ → Type}

/-- Every call satisfies `P`, and after a call that writes the process returns. -/
def WritesLast (writes : κ → Bool) (P : κ → Prop) : Proc κ ρ α → Prop
  | .done _ => True
  | .trap => True
  | .call c k => P c ∧
    if writes c then ∀ r, ∃ a, k r = .done a else ∀ r, WritesLast writes P (k r)

section Structure
variable {writes : κ → Bool} {P : κ → Prop}

theorem writesLast_read {c : κ} {k : ρ c → Proc κ ρ α} (here : P c) (reads : writes c = false)
    (rest : ∀ r, WritesLast writes P (k r)) : WritesLast writes P (.call c k) := by
  constructor
  · exact here
  · rw [if_neg (by simp [reads])]
    exact rest

theorem writesLast_write {c : κ} {k : ρ c → Proc κ ρ α} (here : P c) (write : writes c = true)
    (last : ∀ r, ∃ a, k r = .done a) : WritesLast writes P (.call c k) := by
  constructor
  · exact here
  · rw [if_pos write]
    exact last

theorem WritesLast.map {p : Proc κ ρ α} (last : WritesLast writes P p) (f : α → β) :
    WritesLast writes P (p.map f) := by
  induction p with
  | done a => trivial
  | trap => trivial
  | call c k ih =>
    obtain ⟨here, rest⟩ := last
    cases write : writes c with
    | true =>
      rw [if_pos write] at rest
      apply writesLast_write here write
      intro r
      obtain ⟨a, done⟩ := rest r
      exact ⟨f a, by rw [done]; rfl⟩
    | false =>
      rw [if_neg (by simp [write])] at rest
      exact writesLast_read here write fun r => ih r (rest r)

theorem WritesLast.allCalls {Q : κ → Prop} {p : Proc κ ρ α} (last : WritesLast writes P p)
    (weaker : ∀ c, P c → Q c) : p.AllCalls Q := by
  induction p with
  | done a => trivial
  | trap => trivial
  | call c k ih =>
    obtain ⟨here, rest⟩ := last
    apply Proc.allCalls_call (weaker c here)
    intro r
    split at rest
    · obtain ⟨a, done⟩ := rest r
      rw [done]
      trivial
    · exact ih r (rest r)

end Structure

section Run
variable (serve : Server κ ρ σ) (writes : κ → Bool)

/-- The first write of the run. -/
def firstWrite : Proc κ ρ α → σ → Option κ
  | .done _, _ => none
  | .trap, _ => none
  | .call c k, s =>
    if writes c then some c
    else
      match serve c s with
      | none => none
      | some (r, s') => firstWrite (k r) s'

/-- The process returns `a` without a write and leaves the store as it is. -/
structure Idle (p : Proc κ ρ α) (s : σ) (a : α) : Prop where
  returns : run serve p s = some (a, s)
  silent : firstWrite serve writes p s = none

/-- Calls that do not write leave the store as it is. -/
def ReadsKeep : Prop := ∀ c s r s', writes c = false → serve c s = some (r, s') → s' = s

variable {serve writes}

theorem firstWrite_read {c : κ} (reads : writes c = false) {k : ρ c → Proc κ ρ α} {s s' : σ}
    {r : ρ c} (served : serve c s = some (r, s')) :
    firstWrite serve writes (.call c k) s = firstWrite serve writes (k r) s' := by
  rw [firstWrite, if_neg (by simp [reads]), served]

theorem firstWrite_write {c : κ} (write : writes c = true) (k : ρ c → Proc κ ρ α) (s : σ) :
    firstWrite serve writes (.call c k) s = some c := by
  rw [firstWrite, if_pos write]

theorem firstWrite_bind {p : Proc κ ρ α} {s s' : σ} {a : α}
    (silent : firstWrite serve writes p s = none) (ran : run serve p s = some (a, s'))
    (f : α → Proc κ ρ β) :
    firstWrite serve writes (p.bind f) s = firstWrite serve writes (f a) s' := by
  induction p generalizing s with
  | done b =>
    cases ran
    rfl
  | trap => cases ran
  | call c k ih =>
    cases write : writes c with
    | true =>
      rw [firstWrite_write write] at silent
      cases silent
    | false =>
      cases served : serve c s with
      | none => simp [run, served] at ran
      | some reply =>
        rw [firstWrite_read write served] at silent
        simp only [run, served] at ran
        have next : firstWrite serve writes ((Proc.call c k).bind f) s =
            firstWrite serve writes ((k reply.1).bind f) reply.2 := firstWrite_read write served
        rw [next]
        exact ih reply.1 silent ran

/-- No call of the run writes exactly if there is no first one that does. -/
theorem firstWrite_eq_none {p : Proc κ ρ α} {s : σ} :
    firstWrite serve writes p s = none ↔ ∀ e ∈ trace serve p s, writes e.input = false := by
  induction p generalizing s with
  | done a => simp [firstWrite, trace]
  | trap => simp [firstWrite, trace]
  | call c k ih =>
    cases write : writes c with
    | true =>
      have writing : ∃ e ∈ trace serve (.call c k) s, writes e.input = true := by
        simp only [trace]
        split
        · exact ⟨_, List.mem_cons_self, write⟩
        · exact ⟨_, List.mem_cons_self, write⟩
      obtain ⟨e, he, wrote⟩ := writing
      rw [firstWrite_write write]
      constructor
      · intro silent
        cases silent
      · intro all
        simp [all e he] at wrote
    | false =>
      cases served : serve c s with
      | none => simp [firstWrite, trace, write, served]
      | some reply =>
        rw [firstWrite_read write served, ih]
        simp [trace, served, write]

theorem idle_done (a : α) (s : σ) : Idle serve writes (.done a : Proc κ ρ α) s a := ⟨rfl, rfl⟩

theorem idle_read {c : κ} (reads : writes c = false) {k : ρ c → Proc κ ρ α} {s : σ} {r : ρ c}
    {a : α} (served : serve c s = some (r, s)) (rest : Idle serve writes (k r) s a) :
    Idle serve writes (.call c k) s a := by
  constructor
  · simp only [run, served]
    exact rest.returns
  · rw [firstWrite_read reads served]
    exact rest.silent

theorem idle_read_iff {c : κ} (reads : writes c = false) {k : ρ c → Proc κ ρ α} {s : σ} {r : ρ c}
    {a : α} (served : serve c s = some (r, s)) :
    Idle serve writes (.call c k) s a ↔ Idle serve writes (k r) s a := by
  constructor
  · rintro ⟨returns, silent⟩
    simp only [run, served] at returns
    rw [firstWrite_read reads served] at silent
    exact ⟨returns, silent⟩
  · exact idle_read reads served

theorem not_idle_write {c : κ} (write : writes c = true) (k : ρ c → Proc κ ρ α) (s : σ) (a : α) :
    ¬Idle serve writes (.call c k) s a := by
  rintro ⟨-, silent⟩
  rw [firstWrite_write write] at silent
  cases silent

theorem Idle.bind {p : Proc κ ρ α} {f : α → Proc κ ρ β} {s : σ} {a : α} {b : β}
    (first : Idle serve writes p s a) (rest : Idle serve writes (f a) s b) :
    Idle serve writes (p.bind f) s b := by
  constructor
  · rw [run_bind, first.returns]
    exact rest.returns
  · rw [firstWrite_bind first.silent first.returns]
    exact rest.silent

theorem Idle.map {p : Proc κ ρ α} {s : σ} {a : α} (idle : Idle serve writes p s a) (f : α → β) :
    Idle serve writes (p.map f) s (f a) := idle.bind (idle_done (f a) s)

theorem idle_map_iff {p : Proc κ ρ α} {s : σ} (f : α → β) :
    (∃ b, Idle serve writes (p.map f) s b) ↔ ∃ a, Idle serve writes p s a := by
  constructor
  · rintro ⟨b, returns, silent⟩
    rw [run_map] at returns
    obtain ⟨⟨a, s'⟩, ran, same⟩ := Option.map_eq_some_iff.mp returns
    obtain ⟨-, rfl⟩ := Prod.mk.inj same
    rw [firstWrite_eq_none, trace_map] at silent
    exact ⟨a, ran, firstWrite_eq_none.mpr silent⟩
  · rintro ⟨a, idle⟩
    exact ⟨f a, idle.map f⟩

/-- What the process may read has the same answer on both stores. -/
def Alike (serve : Server κ ρ σ) (writes : κ → Bool) (P : κ → Prop) (s s' : σ) : Prop :=
  ∀ c r, P c → writes c = false → serve c s = some (r, s) → serve c s' = some (r, s')

/-- An idle process is idle on every store that reads alike. -/
theorem Idle.congr (keep : ReadsKeep serve writes) {P : κ → Prop} {p : Proc κ ρ α}
    (allowed : p.AllCalls P) {s s' : σ} (alike : Alike serve writes P s s') {a : α}
    (idle : Idle serve writes p s a) : Idle serve writes p s' a := by
  obtain ⟨returns, silent⟩ := idle
  induction p with
  | done b =>
    cases returns
    exact idle_done a s'
  | trap => cases returns
  | call c k ih =>
    obtain ⟨here, rest⟩ := allowed
    cases write : writes c with
    | true =>
      rw [firstWrite_write write] at silent
      cases silent
    | false =>
      cases served : serve c s with
      | none => simp [run, served] at returns
      | some reply =>
        have same : reply.2 = s := keep c s reply.1 reply.2 write served
        rw [firstWrite_read write served, same] at silent
        simp only [run, served, same] at returns
        have reads : serve c s = some (reply.1, s) := by rw [served, ← same]
        exact idle_read write (alike c reply.1 here write reads)
          (ih reply.1 (rest reply.1) returns silent)

end Run

end IdleRuns
