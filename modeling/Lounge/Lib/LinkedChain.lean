import Mathlib.Data.List.Nodup
import Mathlib.Logic.Function.Basic
import Mathlib.Tactic.Common

/-!
# Doubly linked chains

Nodes that point at the one behind and the one before them, the pointers kept as functions of the
node. What a chain is, is a list; to add a node at either end and to take one out anywhere changes
that list as it should, and no pointer of other nodes.
-/

namespace LinkedChain
open Function
variable {α : Type*}

/-- The nodes of a piece of a chain: what the first points back at, and the last on to. -/
def Piece (next prev : α → Option α) : Option α → List α → Option α → Prop
  | _, [], _ => True
  | before, x :: xs, after =>
    prev x = before ∧ next x = xs.head?.or after ∧ Piece next prev (some x) xs after

/-- A chain of its own. -/
def Linked (next prev : α → Option α) (xs : List α) : Prop := Piece next prev none xs none

section Pieces
variable {next prev next' prev' : α → Option α} {before after : Option α} {xs ys : List α}

theorem Piece.congr (piece : Piece next prev before xs after)
    (sameNext : ∀ x ∈ xs, next' x = next x) (samePrev : ∀ x ∈ xs, prev' x = prev x) :
    Piece next' prev' before xs after := by
  induction xs generalizing before with
  | nil => trivial
  | cons x xs ih =>
    obtain ⟨back, forth, rest⟩ := piece
    refine ⟨?_, ?_, ih rest (fun y hy => sameNext y (List.mem_cons_of_mem _ hy))
      fun y hy => samePrev y (List.mem_cons_of_mem _ hy)⟩
    · rw [samePrev x List.mem_cons_self, back]
    · rw [sameNext x List.mem_cons_self, forth]

theorem piece_append : Piece next prev before (xs ++ ys) after ↔
    Piece next prev before xs (ys.head?.or after) ∧
      Piece next prev (xs.getLast?.or before) ys after := by
  induction xs generalizing before with
  | nil => simp [Piece]
  | cons x xs ih =>
    have last : (x :: xs).getLast?.or before = xs.getLast?.or (some x) := by
      cases xs with
      | nil => rfl
      | cons y ys => simp [List.getLast?_cons]
    rw [List.cons_append, Piece, Piece, ih, last, List.head?_append, Option.or_assoc, and_assoc,
      and_assoc]

theorem Linked.congr (linked : Linked next prev xs) (sameNext : ∀ x ∈ xs, next' x = next x)
    (samePrev : ∀ x ∈ xs, prev' x = prev x) : Linked next' prev' xs :=
  Piece.congr linked sameNext samePrev

/-- Where a node stands. -/
theorem Linked.split {x : α} (linked : Linked next prev (xs ++ x :: ys)) :
    Piece next prev none xs (some x) ∧ prev x = xs.getLast? ∧ next x = ys.head? ∧
      Piece next prev (some x) ys none := by
  obtain ⟨first, back, forth, second⟩ := piece_append.mp linked
  rw [List.head?_cons, Option.some_or] at first
  rw [Option.or_none] at back forth
  exact ⟨first, back, forth, second⟩

end Pieces
section Changes
variable [DecidableEq α] {next prev : α → Option α} {before after after' before' : Option α}
  {xs : List α}

/-- Another node comes behind a piece. -/
theorem Piece.set_after (piece : Piece next prev before xs after) (nodup : xs.Nodup) {last : α}
    (ends : xs.getLast? = some last) :
    Piece (update next last after') prev before xs after' := by
  obtain ⟨front, rfl⟩ := List.getLast?_eq_some_iff.mp ends
  rw [List.nodup_append] at nodup
  obtain ⟨first, back, _, _⟩ := piece_append.mp piece
  refine piece_append.mpr ⟨first.congr (fun y hy => update_of_ne ?_ _ _) fun _ _ => rfl,
    back, update_self _ _ _, trivial⟩
  exact nodup.2.2 y hy last List.mem_cons_self

/-- Another node comes before a piece. -/
theorem Piece.set_before {x : α} (piece : Piece next prev before (x :: xs) after)
    (nodup : (x :: xs).Nodup) :
    Piece next (update prev x before') before' (x :: xs) after := by
  obtain ⟨_, forth, rest⟩ := piece
  refine ⟨update_self _ _ _, forth, rest.congr (fun _ _ => rfl) fun y hy => update_of_ne ?_ _ _⟩
  intro same
  subst same
  exact (List.nodup_cons.mp nodup).1 hy

/-- A new node at the end, behind a last one. -/
theorem Linked.concat (linked : Linked next prev xs) (nodup : xs.Nodup) {y last : α}
    (new : y ∉ xs) (ends : xs.getLast? = some last) :
    Linked (update (update next y none) last (some y)) (update prev y (some last))
      (xs ++ [y]) := by
  have other : y ≠ last := by
    intro same
    subst same
    exact new (List.mem_of_getLast? ends)
  have ne_new : ∀ x ∈ xs, x ≠ y := fun x hx => ne_of_mem_of_not_mem hx new
  have first : Piece (update next y none) (update prev y (some last)) none xs none :=
    Piece.congr linked (fun x hx => update_of_ne (ne_new x hx) _ _)
      fun x hx => update_of_ne (ne_new x hx) _ _
  refine piece_append.mpr ⟨first.set_after nodup ends, ?_, ?_, trivial⟩
  · rw [update_self, ends, Option.some_or]
  · rw [update_of_ne other, update_self]
    rfl

/-- The pointer back from the first node, if there is one. -/
def backTo (prev : α → Option α) (head : Option α) (before : Option α) : α → Option α :=
  match head with
  | some h => update prev h before
  | none => prev

theorem backTo_of_ne {head : Option α} {x : α} (other : head ≠ some x) :
    backTo prev head before x = prev x := by
  cases head with
  | none => rfl
  | some h =>
    apply update_of_ne
    rintro rfl
    exact other rfl

/-- A new node in front. -/
theorem Linked.push (linked : Linked next prev xs) (nodup : xs.Nodup) {y : α} (new : y ∉ xs) :
    Linked (update next y xs.head?) (backTo (update prev y none) xs.head? (some y))
      (y :: xs) := by
  have ne_new : ∀ x ∈ xs, x ≠ y := fun x hx => ne_of_mem_of_not_mem hx new
  have first : Piece (update next y xs.head?) (update prev y none) none xs none :=
    Piece.congr linked (fun x hx => update_of_ne (ne_new x hx) _ _)
      fun x hx => update_of_ne (ne_new x hx) _ _
  refine ⟨?_, ?_, ?_⟩
  · rw [backTo_of_ne, update_self]
    intro same
    exact new (List.mem_of_head? same)
  · rw [update_self, Option.or_none]
  · cases xs with
    | nil => trivial
    | cons x xs => exact first.set_before nodup

/-- The pointer on from the node before. -/
def onTo (next : α → Option α) (last : Option α) (after : Option α) : α → Option α :=
  match last with
  | some p => update next p after
  | none => next

theorem onTo_of_ne {last : Option α} {x : α} (other : last ≠ some x) :
    onTo next last after x = next x := backTo_of_ne other

/-- A node is taken out. -/
theorem Linked.unlink {ys : List α} {x : α} (linked : Linked next prev (xs ++ x :: ys))
    (nodup : (xs ++ x :: ys).Nodup) :
    Linked (onTo next (prev x) (next x)) (backTo prev (next x) (prev x)) (xs ++ ys) := by
  obtain ⟨first, back, forth, second⟩ := linked.split
  obtain ⟨nodup1, nodup2, apart⟩ := List.nodup_append.mp nodup
  obtain ⟨notAfter, nodup3⟩ := List.nodup_cons.mp nodup2
  have apart' : ∀ a ∈ xs, ∀ b ∈ ys, a ≠ b := fun a ha b hb =>
    apart a ha b (List.mem_cons_of_mem _ hb)
  rw [back, forth]
  refine piece_append.mpr ⟨?_, ?_⟩
  · rw [Option.or_none]
    cases ends : xs.getLast? with
    | none =>
      rw [List.getLast?_eq_none_iff.mp ends]
      trivial
    | some last =>
      refine (first.set_after nodup1 ends).congr (fun _ _ => rfl) fun y hy => backTo_of_ne ?_
      intro same
      exact apart' y hy y (List.mem_of_head? same) rfl
  · rw [Option.or_none]
    cases ys with
    | nil => trivial
    | cons y ys =>
      refine (second.set_before nodup3).congr (fun z hz => onTo_of_ne ?_) fun _ _ => rfl
      intro same
      exact apart' z (List.mem_of_getLast? same) z hz rfl

end Changes
section Walks
variable {next prev : α → Option α}

/-- The nodes that are met from one on, when there are fewer than so many. -/
def walk (next : α → Option α) : Nat → Option α → Option (List α)
  | 0, _ => none
  | _ + 1, none => some []
  | fuel + 1, some x => (walk next fuel (next x)).map (x :: ·)

/-- A walk that checks the way back at every node, and counts them. -/
def checkedWalk (next prev : α → Option α) [DecidableEq α] :
    Nat → Option α → Option α → Option Nat
  | 0, _, _ => none
  | _ + 1, _, none => some 0
  | fuel + 1, before, some x =>
    if prev x = before then (checkedWalk next prev fuel (some x) (next x)).map (· + 1) else none

/-- The nodes point on in this order, wherever they point back. -/
def Forward (next : α → Option α) : List α → Prop
  | [] => True
  | x :: xs => next x = xs.head? ∧ Forward next xs

theorem Forward.congr {next' : α → Option α} {xs : List α} (forward : Forward next xs)
    (same : ∀ x ∈ xs, next' x = next x) : Forward next' xs := by
  induction xs with
  | nil => trivial
  | cons x xs ih =>
    refine ⟨?_, ih forward.2 fun y hy => same y (List.mem_cons_of_mem _ hy)⟩
    rw [same x List.mem_cons_self]
    exact forward.1

theorem Piece.forward {before : Option α} {xs : List α} (piece : Piece next prev before xs none) :
    Forward next xs := by
  induction xs generalizing before with
  | nil => trivial
  | cons x xs ih =>
    obtain ⟨_, forth, rest⟩ := piece
    rw [Option.or_none] at forth
    exact ⟨forth, ih rest⟩

theorem Forward.walk {xs : List α} (forward : Forward next xs) {fuel : Nat}
    (enough : xs.length < fuel) : walk next fuel xs.head? = some xs := by
  induction xs generalizing fuel with
  | nil =>
    obtain ⟨fuel, rfl⟩ : ∃ more, fuel = more + 1 := ⟨fuel - 1, by omega⟩
    rfl
  | cons x xs ih =>
    obtain ⟨fuel, rfl⟩ : ∃ more, fuel = more + 1 := ⟨fuel - 1, by omega⟩
    rw [List.length_cons] at enough
    rw [List.head?_cons, LinkedChain.walk, forward.1, ih forward.2 (by omega), Option.map_some]

theorem Piece.checkedWalk [DecidableEq α] {before : Option α} {xs : List α}
    (piece : Piece next prev before xs none) {fuel : Nat} (enough : xs.length < fuel) :
    checkedWalk next prev fuel before xs.head? = some xs.length := by
  induction xs generalizing before fuel with
  | nil =>
    obtain ⟨fuel, rfl⟩ : ∃ more, fuel = more + 1 := ⟨fuel - 1, by omega⟩
    rfl
  | cons x xs ih =>
    obtain ⟨fuel, rfl⟩ : ∃ more, fuel = more + 1 := ⟨fuel - 1, by omega⟩
    obtain ⟨back, forth, rest⟩ := piece
    rw [Option.or_none] at forth
    rw [List.length_cons] at enough ⊢
    rw [List.head?_cons, LinkedChain.checkedWalk, if_pos back, forth, ih rest (by omega),
      Option.map_some]

end Walks
section Bins
variable {β : Type*} [DecidableEq β] {next prev : α → Option α} {slot : α → β}
  {items : List α} {b b' : β} {head head' : Option α} {count count' : Nat} {x : α}

/-- The nodes of one bin are a chain, with this head and so many nodes. -/
def Bin (next prev : α → Option α) (slot : α → β) (items : List α) (b : β) (head : Option α)
    (count : Nat) : Prop :=
  ∃ chain, Linked next prev chain ∧ head = chain.head? ∧ count = chain.length ∧
    chain.Perm (items.filter fun x => slot x = b)

theorem mem_bin {chain : List α} (perm : chain.Perm (items.filter fun x => slot x = b)) :
    x ∈ chain ↔ x ∈ items ∧ slot x = b := by
  rw [perm.mem_iff, List.mem_filter, decide_eq_true_iff]

theorem bin_empty : Bin next prev slot [] b none 0 := ⟨[], trivial, rfl, rfl, List.Perm.nil⟩

/-- The order in which the nodes came does not matter. -/
theorem Bin.perm {items' : List α} (bin : Bin next prev slot items b head count)
    (same : items.Perm items') : Bin next prev slot items' b head count := by
  obtain ⟨chain, linked, heads, counts, perm⟩ := bin
  exact ⟨chain, linked, heads, counts, perm.trans (same.filter _)⟩

/-- Other pointers of the same nodes, and other bins of theirs, as far as they agree. -/
theorem Bin.congr {next' prev' : α → Option α} {slot' : α → β}
    (bin : Bin next prev slot items b head count)
    (sameNext : ∀ x ∈ items, next' x = next x) (samePrev : ∀ x ∈ items, prev' x = prev x)
    (sameSlot : ∀ x ∈ items, slot' x = slot x) : Bin next' prev' slot' items b head count := by
  obtain ⟨chain, linked, heads, counts, perm⟩ := bin
  have inside : ∀ x ∈ chain, x ∈ items := fun x hx => ((mem_bin perm).mp hx).1
  refine ⟨chain, linked.congr (fun x hx => sameNext x (inside x hx))
    fun x hx => samePrev x (inside x hx), heads, counts, ?_⟩
  rwa [List.filter_congr fun x hx => by rw [sameSlot x hx]]

theorem Bin.length_le (bin : Bin next prev slot items b head count) : count ≤ items.length := by
  obtain ⟨chain, _, _, rfl, perm⟩ := bin
  rw [perm.length_eq]
  exact List.length_filter_le _ _

/-- The neighbours of a node are of its bin. -/
theorem Bin.neighbours (bin : Bin next prev slot items b head count) (present : x ∈ items)
    (here : slot x = b) :
    (∀ y, prev x = some y → slot y = b) ∧ ∀ y, next x = some y → slot y = b := by
  obtain ⟨chain, linked, _, _, perm⟩ := bin
  obtain ⟨xs, ys, rfl⟩ := List.append_of_mem ((mem_bin perm).mpr ⟨present, here⟩)
  obtain ⟨_, back, forth, _⟩ := linked.split
  constructor
  · intro y hy
    rw [back] at hy
    exact ((mem_bin perm).mp (by simp [List.mem_of_getLast? hy])).2
  · intro y hy
    rw [forth] at hy
    exact ((mem_bin perm).mp (by simp [List.mem_of_head? hy])).2

/-- The chains of all bins together are all nodes. -/
theorem flatMap_bins_perm {bins : List β} {chains : β → List α} (binsNodup : bins.Nodup)
    (nodup : items.Nodup)
    (perm : ∀ b ∈ bins, (chains b).Perm (items.filter fun x => slot x = b))
    (inside : ∀ x ∈ items, slot x ∈ bins) : (bins.flatMap chains).Perm items := by
  have flatNodup : (bins.flatMap chains).Nodup := by
    refine List.nodup_flatMap.mpr ⟨fun b hb => (perm b hb).nodup_iff.mpr (nodup.filter _), ?_⟩
    refine binsNodup.pairwise_of_forall_ne fun b hb b' hb' apart y hy hy' => apart ?_
    rw [← ((mem_bin (perm b hb)).mp hy).2, ← ((mem_bin (perm b' hb')).mp hy').2]
  refine (List.perm_ext_iff_of_nodup flatNodup nodup).mpr fun y => ?_
  rw [List.mem_flatMap]
  constructor
  · rintro ⟨b, hb, hy⟩
    exact ((mem_bin (perm b hb)).mp hy).1
  · intro hy
    exact ⟨slot y, inside y hy, (mem_bin (perm _ (inside y hy))).mpr ⟨hy, rfl⟩⟩

variable [DecidableEq α]

/-- A new node goes in front of its bin. -/
theorem Bin.push (bin : Bin next prev slot items b head count) (nodup : items.Nodup)
    (new : x ∉ items) (here : slot x = b) :
    Bin (update next x head) (backTo (update prev x none) head (some x)) slot (x :: items) b
      (some x) (count + 1) := by
  obtain ⟨chain, linked, rfl, rfl, perm⟩ := bin
  have newChain : x ∉ chain := fun member => new ((mem_bin perm).mp member).1
  refine ⟨x :: chain, linked.push (perm.nodup_iff.mpr (nodup.filter _)) newChain, rfl, rfl, ?_⟩
  have stays : ((x :: items).filter fun y => slot y = b) = x :: items.filter fun y => slot y = b :=
    List.filter_cons_of_pos (by rw [here, decide_eq_true_iff])
  rw [stays]
  exact perm.cons x

/-- The other bins do not see it. -/
theorem Bin.push_other (bin : Bin next prev slot items b head count)
    (other : Bin next prev slot items b' head' count') (new : x ∉ items) (here : slot x = b)
    (apart : b ≠ b') :
    Bin (update next x head) (backTo (update prev x none) head (some x)) slot (x :: items) b'
      head' count' := by
  obtain ⟨chain, _, rfl, _, perm⟩ := bin
  obtain ⟨chain', linked, heads, counts, perm'⟩ := other
  refine ⟨chain', linked.congr (fun y hy => ?_) fun y hy => ?_, heads, counts, ?_⟩
  · exact update_of_ne (ne_of_mem_of_not_mem ((mem_bin perm').mp hy).1 new) _ _
  · rw [backTo_of_ne, update_of_ne (ne_of_mem_of_not_mem ((mem_bin perm').mp hy).1 new)]
    intro first
    have inFirst := (mem_bin perm).mp (List.mem_of_head? first)
    exact apart (inFirst.2.symm.trans ((mem_bin perm').mp hy).2)
  · rw [List.filter_cons_of_neg]
    · exact perm'
    · rw [decide_eq_true_iff, here]
      exact apart

/-- A node is taken out of its bin. -/
theorem Bin.unlink (bin : Bin next prev slot items b head count) (nodup : items.Nodup)
    (present : x ∈ items) (here : slot x = b) :
    Bin (onTo next (prev x) (next x)) (backTo prev (next x) (prev x)) slot (items.erase x) b
      (if head = some x then next x else head) (count - 1) := by
  obtain ⟨chain, linked, rfl, rfl, perm⟩ := bin
  obtain ⟨xs, ys, rfl⟩ := List.append_of_mem ((mem_bin perm).mpr ⟨present, here⟩)
  have nodupChain := perm.nodup_iff.mpr (nodup.filter fun x => decide (slot x = b))
  obtain ⟨_, _, forth, _⟩ := linked.split
  refine ⟨xs ++ ys, linked.unlink nodupChain, ?_, ?_, ?_⟩
  · cases xs with
    | nil => rw [List.nil_append, List.head?_cons, if_pos rfl, forth, List.nil_append]
    | cons a xs =>
      rw [List.cons_append, List.head?_cons, if_neg, List.cons_append, List.head?_cons]
      intro same
      rw [Option.some.inj same, List.cons_append, List.nodup_cons] at nodupChain
      exact nodupChain.1 (by simp)
  · simp only [List.length_append, List.length_cons]
    omega
  · have rest : (xs ++ ys).Nodup := nodupChain.sublist (by simp)
    refine (List.perm_ext_iff_of_nodup rest ((nodup.erase x).filter _)).mpr fun y => ?_
    have mem := mem_bin (x := y) perm
    rw [List.mem_filter, decide_eq_true_iff, nodup.mem_erase_iff]
    have apart : x ∉ xs ++ ys := by
      rw [List.nodup_middle, List.nodup_cons] at nodupChain
      exact nodupChain.1
    by_cases same : y = x
    · subst same
      simp [apart]
    · simp only [List.mem_append, List.mem_cons, same, false_or] at mem ⊢
      rw [mem, and_iff_right same]

theorem Bin.unlink_other (bin : Bin next prev slot items b head count)
    (other : Bin next prev slot items b' head' count') (nodup : items.Nodup)
    (present : x ∈ items) (here : slot x = b) (apart : b ≠ b') :
    Bin (onTo next (prev x) (next x)) (backTo prev (next x) (prev x)) slot (items.erase x) b'
      head' count' := by
  obtain ⟨before, behind⟩ := bin.neighbours present here
  obtain ⟨chain, linked, heads, counts, perm⟩ := other
  refine ⟨chain, linked.congr (fun y hy => onTo_of_ne ?_) fun y hy => backTo_of_ne ?_, heads,
    counts, ?_⟩
  · intro same
    exact apart ((before y same).symm.trans ((mem_bin perm).mp hy).2)
  · intro same
    exact apart ((behind y same).symm.trans ((mem_bin perm).mp hy).2)
  · refine (List.perm_ext_iff_of_nodup (perm.nodup_iff.mpr (nodup.filter _))
      ((nodup.erase x).filter _)).mpr fun y => ?_
    rw [mem_bin perm, List.mem_filter, decide_eq_true_iff, nodup.mem_erase_iff]
    refine ⟨fun ⟨member, there⟩ => ⟨⟨?_, member⟩, there⟩, fun ⟨⟨_, member⟩, there⟩ =>
      ⟨member, there⟩⟩
    rintro rfl
    exact apart (here.symm.trans there)

end Bins
end LinkedChain
