import Lounge.Utils.Uthash

/-!
# The table as a map in the order of addition

What the macros keep between them: the elements are one chain in the order they were added, and
every bucket is a chain of the elements that hash to it. A bucket that grows too long doubles the
buckets, and the chains are made anew from the old ones.
-/

namespace Uthash
open LinkedChain Function
variable {α : Type*}

section Buckets
variable {hh : UtHashHandle α} {numBkts : Nat} {buckets : Nat → UtHashBucket α} {items : List α}

/-- The buckets hold these items, every one where it is due. -/
def Binned (hh : UtHashHandle α) (numBkts : Nat) (buckets : Nat → UtHashBucket α)
    (items : List α) : Prop :=
  ∀ b, Bin hh.hhNext hh.hhPrev (fun x => hashToBkt (hh.hashv x) numBkts) items b
    (buckets b).hhHead (buckets b).count

/-- Only the chains of buckets have changed. -/
structure Rebinned (hh hh' : UtHashHandle α) : Prop where
  prev : hh'.prev = hh.prev
  next : hh'.next = hh.next
  key : hh'.key = hh.key
  hashv : hh'.hashv = hh.hashv

theorem Rebinned.refl (hh : UtHashHandle α) : Rebinned hh hh := ⟨rfl, rfl, rfl, rfl⟩

theorem Rebinned.trans {hh' hh'' : UtHashHandle α} (first : Rebinned hh hh')
    (second : Rebinned hh' hh'') : Rebinned hh hh'' where
  prev := second.prev.trans first.prev
  next := second.next.trans first.next
  key := second.key.trans first.key
  hashv := second.hashv.trans first.hashv

theorem binned_none (hh : UtHashHandle α) (numBkts : Nat) :
    Binned hh numBkts (fun _ => ⟨none, 0, 0⟩) [] := fun _ => bin_empty

theorem rebinned_pushBkt [DecidableEq α] (hh : UtHashHandle α) (hhHead : Option α) (add : α) :
    Rebinned hh (hh.pushBkt hhHead add) := ⟨rfl, rfl, rfl, rfl⟩

theorem hashToBkt_eq_mod (hashv : UInt32) (log2 : Nat) :
    hashToBkt hashv (2 ^ log2) = hashv.toNat % 2 ^ log2 := Nat.and_two_pow_sub_one_eq_mod _ _

theorem hashToBkt_lt (hashv : UInt32) (log2 : Nat) : hashToBkt hashv (2 ^ log2) < 2 ^ log2 := by
  rw [hashToBkt_eq_mod]
  exact Nat.mod_lt _ (Nat.two_pow_pos log2)

/-- A new item in its bucket, which may have a new multiplier. -/
theorem Binned.push [DecidableEq α] {x : α} {b : Nat} (binned : Binned hh numBkts buckets items)
    (expandMult : Nat) (nodup : items.Nodup) (new : x ∉ items) (few : items.length + 1 < 2 ^ 32)
    (here : hashToBkt (hh.hashv x) numBkts = b) :
    Binned (hh.pushBkt (buckets b).hhHead x) numBkts
      (update buckets b ⟨some x, ((buckets b).count + 1) % 2 ^ 32, expandMult⟩) (x :: items) := by
  intro b'
  by_cases same : b' = b
  · subst same
    have inRange := (binned b').length_le
    rw [update_self, Nat.mod_eq_of_lt (by omega)]
    exact (binned b').push nodup new here
  · rw [update_of_ne same]
    exact (binned b).push_other (binned b') new here (Ne.symm same)

end Buckets
section Expansion
variable [DecidableEq α] {numBuckets ideal fuel : Nat} {e : Expanding α} {xs moved : List α}

theorem rebinned_expandItems :
    Rebinned e.hh (xs.foldl (expandItem numBuckets ideal) e).hh := by
  induction xs generalizing e with
  | nil => exact Rebinned.refl _
  | cons x xs ih => exact (rebinned_pushBkt _ _ x).trans (ih (e := expandItem numBuckets ideal e x))

theorem expandItems_hhNext {y : α} (other : y ∉ xs) :
    (xs.foldl (expandItem numBuckets ideal) e).hh.hhNext y = e.hh.hhNext y := by
  induction xs generalizing e with
  | nil => rfl
  | cons x xs ih =>
    rw [List.mem_cons, not_or] at other
    rw [List.foldl_cons, ih other.2]
    exact update_of_ne other.1 _ _

/-- The items moved and the ones to move keep apart, and every one comes to its new bucket. -/
theorem expandItems_binned (binned : Binned e.hh (numBuckets * 2) e.newBuckets moved)
    (nodup : (xs.reverse ++ moved).Nodup) (few : (xs.reverse ++ moved).length < 2 ^ 32) :
    Binned (xs.foldl (expandItem numBuckets ideal) e).hh (numBuckets * 2)
      (xs.foldl (expandItem numBuckets ideal) e).newBuckets (xs.reverse ++ moved) := by
  induction xs generalizing e moved with
  | nil => exact binned
  | cons x xs ih =>
    rw [List.reverse_cons, List.append_assoc, List.singleton_append] at nodup few ⊢
    obtain ⟨new, nodupMoved⟩ := List.nodup_cons.mp nodup.of_append_right
    refine ih (binned.push _ nodupMoved new ?_ rfl) nodup few
    rw [List.length_append, List.length_cons] at few
    omega

/-- A walk down a chain that is taken apart on the way. -/
theorem expandChain_eq (forward : Forward e.hh.hhNext xs) (nodup : xs.Nodup)
    (enough : xs.length < fuel) :
    expandChain numBuckets ideal fuel e xs.head? =
      some (xs.foldl (expandItem numBuckets ideal) e) := by
  induction xs generalizing e fuel with
  | nil =>
    obtain ⟨fuel, rfl⟩ : ∃ more, fuel = more + 1 := ⟨fuel - 1, by omega⟩
    rfl
  | cons x xs ih =>
    obtain ⟨fuel, rfl⟩ : ∃ more, fuel = more + 1 := ⟨fuel - 1, by omega⟩
    obtain ⟨new, nodup⟩ := List.nodup_cons.mp nodup
    rw [List.length_cons] at enough
    have still : Forward (expandItem numBuckets ideal e x).hh.hhNext xs :=
      forward.2.congr fun y hy => update_of_ne (ne_of_mem_of_not_mem hy new) _ _
    rw [List.head?_cons, expandChain, forward.1, ih still nodup (by omega), List.foldl_cons]

theorem expandChains_eq (e : Expanding α) (chains : Nat → List α) {heads : Nat → Option α}
    {bs : List Nat}
    (start : ∀ b ∈ bs, heads b = (chains b).head?)
    (forward : ∀ b ∈ bs, Forward e.hh.hhNext (chains b)) (nodup : (bs.flatMap chains).Nodup)
    (enough : ∀ b ∈ bs, (chains b).length < fuel) :
    bs.foldlM (fun e b => expandChain numBuckets ideal fuel e (heads b)) e =
      some ((bs.flatMap chains).foldl (expandItem numBuckets ideal) e) := by
  induction bs generalizing e with
  | nil => rfl
  | cons b bs ih =>
    simp only [List.forall_mem_cons] at start forward enough
    rw [List.flatMap_cons] at nodup ⊢
    obtain ⟨nodupHere, nodupRest, apart⟩ := List.nodup_append.mp nodup
    rw [List.foldlM_cons, start.1, expandChain_eq forward.1 nodupHere enough.1, List.foldl_append]
    refine ih _ start.2 (fun b' hb' => ?_) nodupRest enough.2
    refine (forward.2 b' hb').congr fun y hy => expandItems_hhNext ?_
    intro here
    exact apart y here y (List.mem_flatMap.mpr ⟨b', hb', hy⟩) rfl

end Expansion
section Adding
variable {allocates : Nat → Bool} {s s' : Hash α} {items : List α} {x : α}

/-- The items in their buckets, whose number is a power of two. -/
structure Bucketed (s : Hash α) (items : List α) : Prop where
  binned : Binned s.hh s.tbl.numBuckets s.tbl.buckets items
  power : s.tbl.numBuckets = 2 ^ s.tbl.log2NumBuckets
  inRange : s.tbl.numBuckets < 2 ^ 32

/-- The buckets have changed and the order of elements has not. -/
structure Regrouped (s s' : Hash α) : Prop where
  head : s'.head = s.head
  tail : s'.tbl.tail = s.tbl.tail
  numItems : s'.tbl.numItems = s.tbl.numItems
  rebinned : Rebinned s.hh s'.hh

/-- There is no memory for twice the buckets, or no number of them. -/
def Full (allocates : Nat → Bool) (s : Hash α) : Prop :=
  allocates (2 * s.tbl.numBuckets) = false ∨ s.tbl.numBuckets = 2 ^ 31

theorem idealLength_pos {tbl : UtHashTable α} (power : tbl.numBuckets = 2 ^ tbl.log2NumBuckets)
    (any : 0 < tbl.numItems) : idealLength tbl ≠ 0 := by
  intro zero
  rw [idealLength, power, ← Nat.pow_succ, Nat.and_two_pow_sub_one_eq_mod,
    Nat.shiftRight_eq_div_pow] at zero
  have parts := Nat.div_add_mod tbl.numItems (2 ^ (tbl.log2NumBuckets + 1))
  by_cases rest : tbl.numItems % 2 ^ (tbl.log2NumBuckets + 1) = 0
  · rw [if_neg (not_not.mpr rest), Nat.add_zero] at zero
    rw [zero, rest, Nat.mul_zero] at parts
    omega
  · rw [if_pos rest] at zero
    exact Nat.succ_ne_zero _ zero

/-- The chains of all buckets, which are the items. -/
theorem Bucketed.chains (bucketed : Bucketed s items) (nodup : items.Nodup) :
    ∃ chains : Nat → List α, (∀ b, Linked s.hh.hhNext s.hh.hhPrev (chains b)) ∧
      (∀ b, (s.tbl.buckets b).hhHead = (chains b).head?) ∧
      (∀ b, (s.tbl.buckets b).count = (chains b).length) ∧
      (∀ b, (chains b).length ≤ items.length) ∧
      ((List.range s.tbl.numBuckets).flatMap chains).Perm items := by
  choose chains linked heads counts perm using bucketed.binned
  refine ⟨chains, linked, heads, counts, fun b => ?_, ?_⟩
  · rw [← counts b]
    exact (bucketed.binned b).length_le
  · refine flatMap_bins_perm List.nodup_range nodup (fun b _ => perm b) fun x _ => ?_
    rw [List.mem_range, bucketed.power]
    exact hashToBkt_lt _ _

variable [DecidableEq α]

/-- The buckets are doubled with all that is in them, unless there is no room. -/
theorem hashExpandBuckets_spec (bucketed : Bucketed s items) (nodup : items.Nodup)
    (counted : s.tbl.numItems = items.length) (any : 0 < items.length)
    (few : items.length < 2 ^ 32) :
    (hashExpandBuckets allocates s = none ∧ Full allocates s) ∨
      ∃ s', hashExpandBuckets allocates s = some s' ∧ Bucketed s' items ∧ Regrouped s s' := by
  rw [hashExpandBuckets]
  split
  · rename_i beyond
    refine Or.inl ⟨rfl, Or.inr ?_⟩
    have inRange := bucketed.inRange
    rw [bucketed.power] at beyond inRange ⊢
    rw [← Nat.pow_succ'] at beyond
    have upper := (Nat.pow_lt_pow_iff_right (by omega)).mp inRange
    have lower := (Nat.pow_le_pow_iff_right (by omega)).mp beyond
    rw [show s.tbl.log2NumBuckets = 31 by omega]
  split
  · rename_i denied
    exact Or.inl ⟨rfl, Or.inl (by simpa using denied)⟩
  rename_i below _
  rw [if_neg (idealLength_pos bucketed.power (by omega))]
  obtain ⟨chains, linked, heads, _, short, all⟩ := bucketed.chains nodup
  rw [expandChains_eq _ chains (fun b _ => heads b) (fun b _ => (linked b).forward)
    (all.nodup_iff.mpr nodup) fun b _ => by have := short b; omega]
  refine Or.inr ⟨_, rfl, ⟨?_, ?_, ?_⟩, rfl, rfl, rfl, ?_⟩
  · have moved := all.symm.trans ((List.reverse_perm _).symm.trans
      (List.Perm.of_eq (List.append_nil _).symm))
    intro b
    refine ((expandItems_binned (binned_none _ _) ?_ ?_) b).perm moved.symm
    · exact moved.nodup_iff.mp nodup
    · rwa [← moved.length_eq]
  · rw [expanded, Nat.pow_succ, ← bucketed.power]
  · change s.tbl.numBuckets * 2 < 2 ^ 32
    omega
  · exact rebinned_expandItems (e := ⟨s.hh, fun _ => ⟨none, 0, 0⟩, 0⟩)

theorem hashAddToBkt_spec {bkt : Nat} (bucketed : Bucketed s items) (nodup : items.Nodup)
    (new : x ∉ items) (counted : s.tbl.numItems = items.length + 1)
    (few : items.length + 1 < 2 ^ 32)
    (here : hashToBkt (s.hh.hashv x) s.tbl.numBuckets = bkt) :
    (hashAddToBkt allocates s bkt x = none ∧ Full allocates s) ∨
      ∃ s', hashAddToBkt allocates s bkt x = some s' ∧ Bucketed s' (x :: items) ∧
        Regrouped s s' := by
  have inside : Bucketed (inBkt s bkt x) (x :: items) :=
    ⟨bucketed.binned.push _ nodup new few here, bucketed.power, bucketed.inRange⟩
  have rebinned := rebinned_pushBkt s.hh (s.tbl.buckets bkt).hhHead x
  rw [hashAddToBkt]
  split
  · refine (hashExpandBuckets_spec inside (List.nodup_cons.mpr ⟨new, nodup⟩) counted
      (Nat.succ_pos _) few).imp id ?_
    rintro ⟨s', done, bucketed', regrouped⟩
    exact ⟨s', done, bucketed', regrouped.head, regrouped.tail, regrouped.numItems,
      rebinned.trans regrouped.rebinned⟩
  · exact Or.inr ⟨_, rfl, inside, rfl, rfl, rfl, rebinned⟩

end Adding
end Uthash
