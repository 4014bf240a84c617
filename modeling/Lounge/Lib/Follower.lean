import Mathlib.Data.List.Chain
import Mathlib.Tactic.Common

/-!
# Following a leader

A leader has values under keys, and announces them from time to time. A follower
holds a value for each key it has heard of; whether it gives that up for the value
announced is up to it.
-/

namespace Follower
variable {κ ν : Type*}

/-- A fold in which each step gives what it was given ends with the last of that. -/
theorem foldl_last {f : ν → ν → ν} {a : ν} {bs : List ν}
    (taken : List.IsChain (fun a b => f a b = b) (a :: bs)) :
    bs.foldl f a = (a :: bs).getLast (List.cons_ne_nil a bs) := by
  induction bs generalizing a with
  | nil => rfl
  | cons b rest ih =>
    obtain ⟨first, later⟩ := List.isChain_cons_cons.mp taken
    rw [List.foldl_cons, first, ih later, List.getLast_cons_cons]

/-- What is held after an announcement. A first value is taken whatever it is. -/
def hear (take : ν → ν → Bool) : Option ν → Option ν → Option ν
  | held, none => held
  | none, some v => some v
  | some h, some v => if take h v then some v else some h

section Hear
variable {take : ν → ν → Bool}

theorem hear_none (held : Option ν) : hear take held none = held := by
  cases held <;> rfl

theorem none_hear (now : Option ν) : hear take none now = now := by
  cases now <;> rfl

theorem hear_taken {h v : ν} (takes : take h v = true) :
    hear take (some h) (some v) = some v := by
  simp [hear, takes]

theorem hear_kept {h v : ν} (keeps : take h v = false) :
    hear take (some h) (some v) = some h := by
  simp [hear, keeps]

/-- Whatever is taken of itself. -/
theorem hear_self (now : Option ν) : hear take now now = now := by
  cases now with
  | none => rfl
  | some v => simp [hear]

/-- A second announcement of a value makes no difference. -/
theorem hear_again (held now : Option ν) :
    hear take (hear take held now) now = hear take held now := by
  rcases held with _ | h
  · rw [none_hear, hear_self]
  rcases now with _ | v
  · rfl
  cases takes : take h v with
  | true => rw [hear_taken takes, hear_self]
  | false => rw [hear_kept takes, hear_kept takes]

/-- A value that none of the announcements displaces. -/
theorem foldl_hear_kept {held : Option ν} {nows : List (Option ν)}
    (kept : ∀ now ∈ nows, hear take held now = held) : nows.foldl (hear take) held = held := by
  induction nows with
  | nil => rfl
  | cons now rest ih =>
    rw [List.foldl_cons, kept now List.mem_cons_self]
    exact ih fun later mem => kept later (List.mem_cons_of_mem _ mem)

end Hear

section Rounds
variable (take : κ → ν → ν → Bool)

/-- All that the leader has is announced. -/
def hearAll (held now : κ → Option ν) : κ → Option ν := fun k => hear (take k) (held k) (now k)

/-- Only these keys are. -/
def hearKeys [DecidableEq κ] (news : List κ) (held now : κ → Option ν) : κ → Option ν :=
  fun k => if k ∈ news then hear (take k) (held k) (now k) else held k

/-- What a follower holds that begins with nothing, after the leader has had these values. -/
def after (nows : List (κ → Option ν)) : κ → Option ν := nows.foldl (hearAll take) fun _ => none

variable {take}

/-- An announcement of all that is new does for all. -/
theorem hearKeys_complete [DecidableEq κ] {news : List κ} {held before now : κ → Option ν}
    (heard : ∀ k, hear (take k) (held k) (before k) = held k)
    (complete : ∀ k, k ∉ news → now k = before k) :
    hearKeys take news held now = hearAll take held now := by
  funext k
  by_cases named : k ∈ news
  · rw [hearKeys, if_pos named, hearAll]
  · rw [hearKeys, if_neg named, hearAll, complete k named, heard k]

/-- One key after another. -/
theorem hearKeys_cons [DecidableEq κ] (k : κ) (news : List κ) (held now : κ → Option ν) :
    hearKeys take (k :: news) held now = hearKeys take news (hearKeys take [k] held now) now := by
  funext j
  by_cases here : j = k
  · subst here
    by_cases again : j ∈ news
    · simp [hearKeys, again, hear_again]
    · simp [hearKeys, again]
  · by_cases again : j ∈ news <;> simp [hearKeys, here, again]

theorem foldl_hearAll_apply (held : κ → Option ν) (nows : List (κ → Option ν)) (k : κ) :
    nows.foldl (hearAll take) held k =
      (nows.map fun now => now k).foldl (hear (take k)) (held k) := by
  induction nows generalizing held with
  | nil => rfl
  | cons now rest ih => exact ih _

/-- A follower that takes each value of a key for the one before has the last one. -/
theorem after_last {nows : List (κ → Option ν)} {k : κ}
    (taken : List.IsChain (fun a b => hear (take k) a b = b) (none :: nows.map fun now => now k)) :
    after take nows k = (nows.map fun now => now k).getLast?.join := by
  rw [after, foldl_hearAll_apply, foldl_last taken]
  generalize (nows.map fun now => now k) = os
  cases os with
  | nil => rfl
  | cons o rest =>
    rw [List.getLast_cons_cons, List.getLast?_eq_getLast_of_ne_nil (List.cons_ne_nil o rest),
      Option.join_some]

/-- The first of these values if it stays, and otherwise the last one. -/
def firstOrLast (stays : ν → Bool) (nows : List (Option ν)) : Option ν :=
  match nows.findSome? id with
  | none => none
  | some first => if stays first then some first else nows.getLast?.join

/-- If the first value of a key may stay for good, and every later one is taken for the one
before, then one of the two is held. -/
theorem after_first {stays : ν → Bool} {nows : List (κ → Option ν)} {k : κ}
    (later : (nows.map fun now => now k).Pairwise fun a b =>
      ∀ h ∈ a, ∃ v ∈ b, v = h ∨ stays v = false ∧ take k h v = !stays h) :
    after take nows k = firstOrLast stays (nows.map fun now => now k) := by
  rw [after, foldl_hearAll_apply]
  generalize (nows.map fun now => now k) = os at later ⊢
  induction os with
  | nil => rfl
  | cons o rest ih =>
    rw [firstOrLast] at ih ⊢
    obtain ⟨here, others⟩ := List.pairwise_cons.mp later
    cases o with
    | none =>
      rw [List.foldl_cons, hear_none, ih others, List.findSome?_cons_of_isNone rfl]
      cases rest with
      | nil => rfl
      | cons next rest => rw [List.getLast?_cons_cons]
    | some first =>
      rw [List.foldl_cons, none_hear, List.findSome?_cons_of_isSome rfl]
      simp only [id]
      cases kept : stays first with
      | true =>
        rw [if_pos rfl]
        refine foldl_hear_kept fun now mem => ?_
        obtain ⟨v, there, same | ⟨-, takes⟩⟩ := here now mem first rfl
        · rw [there, same, hear_self]
        · rw [there]
          exact hear_kept (by rw [takes, kept]; rfl)
      | false =>
        have given : ∀ now ∈ some first :: rest, ∀ v ∈ now, stays v = false := by
          intro now mem v there
          rcases List.mem_cons.mp mem with rfl | mem
          · rw [← Option.some.inj there]
            exact kept
          · obtain ⟨v', there', same | ⟨never, -⟩⟩ := here now mem first rfl
            · rw [Option.mem_unique there there', same]
              exact kept
            · rw [Option.mem_unique there there']
              exact never
        have taken : (some first :: rest).Pairwise fun a b => hear (take k) a b = b := by
          refine later.imp_of_mem fun {a b} memA _ next => ?_
          cases a with
          | none => exact none_hear b
          | some h =>
            obtain ⟨v, there, same | ⟨-, takes⟩⟩ := next h rfl
            · rw [there, same, hear_self]
            · rw [there]
              exact hear_taken (by rw [takes, given _ memA h rfl]; rfl)
        rw [if_neg (by simp), foldl_last taken.isChain, List.getLast?_eq_getLast_of_ne_nil]
        rfl

end Rounds

end Follower
