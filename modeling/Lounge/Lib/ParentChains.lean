import Mathlib.Data.List.Chain
import Mathlib.Logic.Relation
import Mathlib.Tactic.Common

/-!
# Chains of a forest

A forest gives every node at most one parent and has no cycle. A chain runs from a
node towards its root, for as long as it was kept.
-/

namespace ParentChains
variable {α : Type*}

structure Forest (α : Type*) where
  parent : α → Option α
  acyclic : ∀ a, ¬ Relation.TransGen (fun x y => parent x = some y) a a

/-- `b` is a proper ancestor of `a`. -/
def Forest.Above (f : Forest α) (a b : α) : Prop :=
  Relation.TransGen (fun x y => f.parent x = some y) a b

/-- Each node of the list is followed by its parent. -/
def Forest.Chain (f : Forest α) (l : List α) : Prop :=
  l.IsChain fun x y => f.parent x = some y

/-- Parents that lower a rank make a forest. -/
def Forest.ofRank (parent : α → Option α) (rank : α → Nat)
    (lower : ∀ x y, parent x = some y → rank y < rank x) : Forest α where
  parent := parent
  acyclic := by
    have below : ∀ x y, Relation.TransGen (fun x y => parent x = some y) x y → rank y < rank x := by
      intro x y path
      induction path with
      | single step => exact lower _ _ step
      | tail _ step ih => exact Nat.lt_trans (lower _ _ step) ih
    exact fun a cycle => Nat.lt_irrefl _ (below a a cycle)

variable {f : Forest α}

instance : Trans f.Above f.Above f.Above := ⟨Relation.TransGen.trans⟩

theorem Forest.Chain.drop {l : List α} (h : f.Chain l) (n : Nat) : f.Chain (l.drop n) :=
  List.IsChain.drop h n

/-- What comes after a node of a chain is above it. -/
theorem Forest.Chain.above {a b : α} {l : List α} (h : f.Chain (a :: l)) (hb : b ∈ l) :
    f.Above a b := by
  have closure : (a :: l).IsChain f.Above := List.IsChain.imp (fun _ _ => .single) h
  exact List.rel_of_pairwise_cons closure.pairwise hb

theorem Forest.Chain.nodup {l : List α} (h : f.Chain l) : l.Nodup := by
  have closure : l.IsChain f.Above := List.IsChain.imp (fun _ _ => .single) h
  refine closure.pairwise.imp ?_
  rintro a b above rfl
  exact f.acyclic a above

/-- Two chains from one node agree as far as both were kept. -/
theorem Forest.Chain.agree {a : α} {xs ys : List α} (hx : f.Chain (a :: xs))
    (hy : f.Chain (a :: ys)) (n : Nat) (nx : n ≤ xs.length + 1) (ny : n ≤ ys.length + 1) :
    (a :: xs).take n = (a :: ys).take n := by
  induction xs generalizing a ys n with
  | nil =>
    have hn : n = 0 ∨ n = 1 := by simp at nx; omega
    rcases hn with rfl | rfl <;> rfl
  | cons x xs ih =>
    cases n with
    | zero => rfl
    | succ n =>
      cases ys with
      | nil =>
        have hn : n = 0 := by simp at ny; omega
        subst hn
        rfl
      | cons y ys =>
        have px := List.isChain_cons_cons.mp hx
        have py := List.isChain_cons_cons.mp hy
        have same : y = x := Option.some.inj (py.1.symm.trans px.1)
        subst same
        simp only [List.take_succ_cons, List.cons.injEq, true_and]
        exact ih px.2 py.2 n (by simpa using nx) (by simpa using ny)

/-- Of two chains from different nodes, at most one leads to the node of the other. -/
theorem Forest.Chain.not_both {a b : α} {xs ys : List α} (ne : a ≠ b) (hx : f.Chain (a :: xs))
    (hy : f.Chain (b :: ys)) (ha : a ∈ b :: ys) : b ∉ a :: xs := by
  intro hb
  have ab : f.Above b a := hy.above (List.mem_of_ne_of_mem ne ha)
  have ba : f.Above a b := hx.above (List.mem_of_ne_of_mem ne.symm hb)
  exact f.acyclic a (ba.trans ab)

/-- An occurrence in a list is the last one or comes before it. -/
theorem mem_dropLast_iff {l : List α} (nodup : l.Nodup) (ne : l ≠ []) (a : α) :
    a ∈ l.dropLast ↔ a ∈ l ∧ a ≠ l.getLast ne := by
  have split := List.dropLast_append_getLast ne
  have apart : l.getLast ne ∉ l.dropLast := by
    rw [← split, List.nodup_append] at nodup
    intro h
    exact nodup.2.2 _ h _ (List.mem_singleton_self _) rfl
  constructor
  · intro h
    exact ⟨List.dropLast_subset l h, fun same => apart (same ▸ h)⟩
  · rintro ⟨h, other⟩
    rw [← split, List.mem_append, List.mem_singleton] at h
    exact h.resolve_right other

end ParentChains
