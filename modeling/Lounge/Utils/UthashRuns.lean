import Lounge.Utils.UthashTable

/-!
# What a hash answers

After any additions and deletions the hash is the list of elements that are there, with their
keys, in the order they were added: it runs through them in that order, counts them, finds by a
key an element that has it, and passes its own check. Only a lack of memory stops it.
-/

namespace Uthash
open LinkedChain Function
variable {α : Type*} {s s' : Hash α} {entries : List (α × List UInt8)} {x : α} {key : List UInt8}

/-- The elements are in this order, and the handles have their keys. -/
structure Ordered (s : Hash α) (entries : List (α × List UInt8)) : Prop where
  nodup : (entries.map Prod.fst).Nodup
  few : entries.length < 2 ^ 32
  head : s.head = (entries.map Prod.fst).head?
  tail : (entries.map Prod.fst).getLast? = some s.tbl.tail
  linked : Linked s.hh.next s.hh.prev (entries.map Prod.fst)
  counted : s.tbl.numItems = entries.length
  keys : ∀ e ∈ entries, s.hh.key e.1 = e.2 ∧ s.hh.hashv e.1 = hashJen e.2

/-- A hash with something in it. -/
structure Filled (s : Hash α) (entries : List (α × List UInt8)) : Prop extends
    Ordered s entries where
  bucketed : Bucketed s (entries.map Prod.fst)

/-- The hash is these elements with their keys. An empty one has no table. -/
def Represents (s : Hash α) (entries : List (α × List UInt8)) : Prop :=
  s.head = none ∧ entries = [] ∨ Filled s entries

theorem Ordered.regrouped (ordered : Ordered s entries) (regrouped : Regrouped s s') :
    Ordered s' entries where
  nodup := ordered.nodup
  few := ordered.few
  head := by rw [regrouped.head, ordered.head]
  tail := by rw [regrouped.tail, ordered.tail]
  linked := by
    rw [regrouped.rebinned.next, regrouped.rebinned.prev]
    exact ordered.linked
  counted := by rw [regrouped.numItems, ordered.counted]
  keys := by
    rw [regrouped.rebinned.key, regrouped.rebinned.hashv]
    exact ordered.keys

theorem Ordered.ne_nil (ordered : Ordered s entries) : entries ≠ [] := by
  rintro rfl
  cases ordered.tail

theorem Ordered.head_ne_none (ordered : Ordered s entries) : s.head ≠ none := by
  intro empty
  rw [ordered.head, List.head?_eq_none_iff, List.map_eq_nil_iff] at empty
  exact ordered.ne_nil empty

section Add
variable [DecidableEq α] {allocates : Nat → Bool}

/-- Memory has run out for an element to be added. -/
def OutOfMemory (allocates : Nat → Bool) (s : Hash α) : Prop :=
  if s.head = none then allocates initialNumBuckets = false else Full allocates s

theorem keys_add (keys : ∀ e ∈ entries, s.hh.key e.1 = e.2 ∧ s.hh.hashv e.1 = hashJen e.2)
    (new : x ∉ entries.map Prod.fst) :
    ∀ e ∈ entries ++ [(x, key)], update s.hh.key x key e.1 = e.2 ∧
      update s.hh.hashv x (hashJen key) e.1 = hashJen e.2 := by
  intro e he
  rcases List.mem_append.mp he with old | last
  · have other : e.1 ≠ x := by
      rintro rfl
      exact new (List.mem_map_of_mem old)
    rw [update_of_ne other, update_of_ne other]
    exact keys e old
  · rw [List.mem_singleton.mp last, update_self, update_self]
    exact ⟨rfl, rfl⟩

theorem appended_ordered (key : List UInt8) (represents : Represents s entries)
    (new : x ∉ entries.map Prod.fst)
    (few : entries.length + 1 < 2 ^ 32) :
    Ordered (appended s x key) (entries ++ [(x, key)]) := by
  rcases represents with ⟨empty, rfl⟩ | filled
  · rw [appended, linkedLast, empty]
    refine ⟨List.nodup_singleton x, few, rfl, rfl, ⟨update_self _ _ _, update_self _ _ _, trivial⟩,
      rfl, ?_⟩
    exact keys_add (fun e he => absurd he List.not_mem_nil) new
  · obtain ⟨first, heads⟩ := Option.ne_none_iff_exists'.mp filled.head_ne_none
    rw [appended, linkedLast, heads]
    have total := filled.counted
    refine ⟨?_, ?_, ?_, ?_, ?_, ?_, keys_add filled.keys new⟩
    · rw [List.map_append]
      exact List.nodup_append_comm.mp (List.nodup_cons.mpr ⟨new, filled.nodup⟩)
    · rwa [List.length_append]
    · rw [List.map_append, List.head?_append, ← filled.head, heads, Option.some_or]
    · rw [List.map_append, List.map_singleton, List.getLast?_concat]
    · rw [List.map_append]
      exact filled.linked.concat filled.nodup new filled.tail
    · rw [List.length_append, List.length_singleton]
      change (s.tbl.numItems + 1) % 2 ^ 32 = _
      rw [total, Nat.mod_eq_of_lt few]

theorem appended_bucketed (key : List UInt8) (represents : Represents s entries)
    (new : x ∉ entries.map Prod.fst) :
    Bucketed (appended s x key) (entries.map Prod.fst) := by
  rcases represents with ⟨empty, rfl⟩ | filled
  · rw [appended, linkedLast, empty]
    exact ⟨binned_none _ _, rfl, (by decide : initialNumBuckets < 2 ^ 32)⟩
  · obtain ⟨first, heads⟩ := Option.ne_none_iff_exists'.mp filled.head_ne_none
    rw [appended, linkedLast, heads]
    refine ⟨fun b => ?_, filled.bucketed.power, filled.bucketed.inRange⟩
    refine (filled.bucketed.binned b).congr (fun _ _ => rfl) (fun _ _ => rfl) fun y hy => ?_
    have other : y ≠ x := ne_of_mem_of_not_mem hy new
    change hashToBkt (update s.hh.hashv x (hashJen key) y) _ = _
    rw [update_of_ne other]

/-- A bucket with one element does not grow. -/
theorem hashAddToBkt_first {bkt : Nat} (empty : s.tbl.buckets bkt = ⟨none, 0, 0⟩) :
    hashAddToBkt allocates s bkt x = some (inBkt s bkt x) := by
  have first : (inBkt s bkt x).tbl.buckets bkt = ⟨some x, 1, 0⟩ :=
    (update_self _ _ _).trans (by rw [empty]; rfl)
  rw [hashAddToBkt, first, if_neg]
  rintro ⟨long, _⟩
  exact absurd (show (0 + 1) * bktCapacityThresh % 2 ^ 32 ≤ 1 from long) (by decide)

theorem appended_full (filled : Filled s entries) (full : Full allocates (appended s x key)) :
    OutOfMemory allocates s := by
  rw [OutOfMemory, if_neg filled.head_ne_none]
  obtain ⟨first, heads⟩ := Option.ne_none_iff_exists'.mp filled.head_ne_none
  rw [appended, linkedLast, heads] at full
  exact full

/-- An element that is not there comes to the end. -/
theorem hashAddKeyptr_spec (allocates : Nat → Bool) (key : List UInt8)
    (represents : Represents s entries) (new : x ∉ entries.map Prod.fst)
    (few : entries.length + 1 < 2 ^ 32) :
    (hashAddKeyptr allocates s x key = none ∧ OutOfMemory allocates s) ∨
      ∃ s', hashAddKeyptr allocates s x key = some s' ∧
        Represents s' (entries ++ [(x, key)]) := by
  have ordered := appended_ordered key represents new few
  have bucketed := appended_bucketed key represents new
  have here : hashToBkt ((appended s x key).hh.hashv x) (appended s x key).tbl.numBuckets =
      hashToBkt (hashJen key) (appended s x key).tbl.numBuckets := by
    rw [(ordered.keys (x, key) (by simp)).2]
  have counted := ordered.counted
  rw [List.length_append, List.length_singleton] at counted
  rw [hashAddKeyptr]
  split
  · rename_i denied
    rw [OutOfMemory, if_pos denied.1]
    exact Or.inl ⟨rfl, by simpa using denied.2⟩
  rw [← List.length_map Prod.fst] at counted few
  rcases hashAddToBkt_spec bucketed (ordered.nodup.sublist (by simp)) new counted few here with
    ⟨failed, full⟩ | ⟨s', done, bucketed', regrouped⟩
  · rcases represents with ⟨empty, _⟩ | filled
    · have fresh : ∀ b, (appended s x key).tbl.buckets b = ⟨none, 0, 0⟩ := by
        rw [appended, linkedLast, empty]
        exact fun _ => rfl
      rw [hashAddToBkt_first (fresh _)] at failed
      cases failed
    · exact Or.inl ⟨failed, appended_full filled full⟩
  · have rotated : (x :: entries.map Prod.fst).Perm ((entries ++ [(x, key)]).map Prod.fst) := by
      rw [List.map_append]
      exact (List.perm_append_singleton _ _).symm
    refine Or.inr ⟨s', done, Or.inr ⟨ordered.regrouped regrouped, ?_, bucketed'.power,
      bucketed'.inRange⟩⟩
    exact fun b => (bucketed'.binned b).perm rotated

end Add
section Delete
variable [DecidableEq α]

theorem getLast?_without {xs ys : List α} {last : α} (nodup : (xs ++ x :: ys).Nodup)
    (ends : (xs ++ x :: ys).getLast? = some last) (rest : xs ++ ys ≠ []) :
    (xs ++ ys).getLast? = some (if x = last then xs.getLast?.getD last else last) := by
  cases ys with
  | nil =>
    rw [List.getLast?_concat] at ends
    rw [List.append_nil] at rest ⊢
    rw [if_pos (Option.some.inj ends), List.getLast?_eq_some_getLast rest, Option.getD_some]
  | cons y ys =>
    rw [List.getLast?_append, List.getLast?_cons_cons] at ends
    have tail : (y :: ys).getLast? = some last := by
      rw [List.getLast?_cons, Option.some_or] at ends
      rwa [List.getLast?_cons]
    rw [if_neg, List.getLast?_append, tail, Option.some_or]
    rintro rfl
    rw [List.nodup_middle, List.nodup_cons] at nodup
    exact nodup.1 (List.mem_append_right _ (List.mem_of_getLast? tail))

/-- The rest of the order when one element goes. -/
theorem unlinked_ordered {xs ys : List (α × List UInt8)}
    (ordered : Ordered s (xs ++ (x, key) :: ys)) (rest : xs ++ ys ≠ []) :
    Linked (unlinked s x).hh.next (unlinked s x).hh.prev ((xs ++ ys).map Prod.fst) ∧
      (unlinked s x).head = ((xs ++ ys).map Prod.fst).head? ∧
      ((xs ++ ys).map Prod.fst).getLast? = some (unlinked s x).tbl.tail := by
  have linked := ordered.linked
  have nodup := ordered.nodup
  have head := ordered.head
  have tail := ordered.tail
  rw [List.map_append, List.map_cons] at linked nodup head tail
  obtain ⟨_, back, forth, _⟩ := linked.split
  rw [List.map_append]
  refine ⟨linked.unlink nodup, ?_, ?_⟩
  · rw [unlinked, back, forth]
    cases xs with
    | nil => rfl
    | cons e xs => rw [List.map_cons, if_neg (by simp), head]; rfl
  · rw [unlinked, back]
    refine getLast?_without nodup tail ?_
    rwa [← List.map_append, ne_eq, List.map_eq_nil_iff]

/-- The bucket of an element, which goes from it, and the others. -/
theorem hashDelInBkt_binned {items : List α} {bkt : Nat}
    (binned : Binned s.hh s.tbl.numBuckets s.tbl.buckets items) (nodup : items.Nodup)
    (present : x ∈ items) (here : hashToBkt (s.hh.hashv x) s.tbl.numBuckets = bkt) :
    Binned (hashDelInBkt s bkt x).hh s.tbl.numBuckets (hashDelInBkt s bkt x).tbl.buckets
      (items.erase x) := by
  intro b
  rw [hashDelInBkt]
  by_cases same : b = bkt
  · subst same
    simp only [update_self]
    exact (binned b).unlink nodup present here
  · simp only [update_of_ne same]
    exact (binned bkt).unlink_other (binned b) nodup present here (Ne.symm same)

theorem erase_entry {xs ys : List (α × List UInt8)}
    (nodup : ((xs ++ (x, key) :: ys).map Prod.fst).Nodup) :
    (xs ++ (x, key) :: ys).filter (fun e => e.1 ≠ x) = xs ++ ys ∧
      ((xs ++ (x, key) :: ys).map Prod.fst).erase x = (xs ++ ys).map Prod.fst := by
  rw [List.map_append, List.map_cons, List.nodup_middle, List.nodup_cons, ← List.map_append]
    at nodup
  have other : ∀ e ∈ xs ++ ys, e.1 ≠ x := by
    intro e he same
    exact nodup.1 (List.mem_map.mpr ⟨e, he, same⟩)
  constructor
  · rw [List.filter_append, List.filter_cons_of_neg (by simp), ← List.filter_append,
      List.filter_eq_self.mpr fun e he => by simpa using other e he]
  · rw [List.map_append, List.map_append, List.map_cons, List.erase_append_right]
    · rw [List.erase_cons_head]
    · intro member
      rw [List.map_append, List.mem_append, not_or] at nodup
      exact nodup.1.1 member

/-- An element that is there goes, and the others stay in order. -/
theorem hashDelete_spec (represents : Represents s entries) (present : x ∈ entries.map Prod.fst) :
    Represents (hashDelete s x) (entries.filter fun e => e.1 ≠ x) := by
  rcases represents with ⟨_, rfl⟩ | filled
  · cases present
  obtain ⟨⟨y, key⟩, member, same⟩ := List.mem_map.mp present
  obtain rfl : y = x := same
  obtain ⟨xs, ys, rfl⟩ := List.append_of_mem member
  obtain ⟨kept, erased⟩ := erase_entry filled.nodup
  rw [kept]
  have linked := filled.linked
  rw [List.map_append, List.map_cons] at linked
  obtain ⟨_, back, forth, _⟩ := linked.split
  rw [hashDelete, back, forth]
  split
  · rename_i only
    rw [List.getLast?_eq_none_iff, List.map_eq_nil_iff, List.head?_eq_none_iff,
      List.map_eq_nil_iff] at only
    rw [only.1, only.2]
    exact Or.inl ⟨rfl, rfl⟩
  rename_i more
  have rest : xs ++ ys ≠ [] := by
    intro none
    rw [List.append_eq_nil_iff] at none
    rw [none.1, none.2] at more
    exact more ⟨rfl, rfl⟩
  obtain ⟨linked', head', tail'⟩ := unlinked_ordered filled.toOrdered rest
  have binned : Binned (unlinked s y).hh (unlinked s y).tbl.numBuckets
      (unlinked s y).tbl.buckets _ := filled.bucketed.binned
  have left := hashDelInBkt_binned binned filled.nodup present rfl
  rw [erased] at left
  have total := filled.counted
  have few := filled.few
  rw [List.length_append, List.length_cons] at total few
  refine Or.inr ⟨⟨?_, ?_, head', tail', linked', ?_, ?_⟩, left, filled.bucketed.power,
    filled.bucketed.inRange⟩
  · rw [← erased]
    exact filled.nodup.erase y
  · rw [List.length_append]
    omega
  · change s.tbl.numItems - 1 = _
    rw [List.length_append]
    omega
  · intro e he
    exact filled.keys e (List.mem_append.mpr
      ((List.mem_append.mp he).imp id (List.mem_cons_of_mem _)))

end Delete
section Answers

/-- What a hash of these entries says: its check passes, it runs through them in order and counts
them, and a key finds an element that was added with it, if there is one. -/
structure Answers [DecidableEq α] (s : Hash α) (entries : List (α × List UInt8)) : Prop where
  fsck : hashFsck s = true
  iter : hashIter s = some (entries.map Prod.fst)
  count : hashCount s = entries.length
  find : ∀ key, ∃ out, hashFind s key = some out ∧ (∀ x, out = some x → (x, key) ∈ entries) ∧
    (out = none → ∀ x, (x, key) ∉ entries)

theorem hashFindInBkt_eq {hh : UtHashHandle α} {chain : List α} (forward : Forward hh.hhNext chain)
    {fuel : Nat} (enough : chain.length < fuel) :
    hashFindInBkt hh key fuel chain.head? = some (chain.find? fun x => hh.key x = key) := by
  induction chain generalizing fuel with
  | nil =>
    obtain ⟨fuel, rfl⟩ : ∃ more, fuel = more + 1 := ⟨fuel - 1, by omega⟩
    rfl
  | cons x chain ih =>
    obtain ⟨fuel, rfl⟩ : ∃ more, fuel = more + 1 := ⟨fuel - 1, by omega⟩
    rw [List.length_cons] at enough
    rw [List.head?_cons, hashFindInBkt, forward.1, ih forward.2 (by omega)]
    by_cases found : hh.key x = key
    · rw [if_pos ⟨congrArg _ found, found⟩, List.find?_cons_of_pos (by simpa using found)]
    · rw [if_neg fun both => found both.2, List.find?_cons_of_neg (by simpa using found)]

/-- The entries of one key are all in the bucket of its hash. -/
theorem Filled.find (filled : Filled s entries) (key : List UInt8) :
    ∃ out, hashFind s key = some out ∧ (∀ x, out = some x → (x, key) ∈ entries) ∧
      (out = none → ∀ x, (x, key) ∉ entries) := by
  obtain ⟨first, heads⟩ := Option.ne_none_iff_exists'.mp filled.head_ne_none
  have short := (filled.bucketed.binned (hashToBkt (hashJen key) s.tbl.numBuckets)).length_le
  obtain ⟨chain, linked, start, counted, perm⟩ :=
    filled.bucketed.binned (hashToBkt (hashJen key) s.tbl.numBuckets)
  rw [counted, List.length_map, ← filled.counted] at short
  refine ⟨chain.find? fun x => s.hh.key x = key, ?_, fun x found => ?_, fun missing x here => ?_⟩
  · rw [hashFind, heads]
    change hashFindInBkt _ _ _ _ = _
    rw [start, hashFindInBkt_eq linked.forward (by omega)]
  · have keyed : s.hh.key x = key := by simpa using List.find?_some found
    have member := ((mem_bin perm).mp (List.mem_of_find?_eq_some found)).1
    obtain ⟨⟨y, key'⟩, entry, rfl⟩ := List.mem_map.mp member
    rw [(filled.keys _ entry).1] at keyed
    exact keyed ▸ entry
  · have keyed := filled.keys _ here
    have member : x ∈ chain :=
      (mem_bin perm).mpr ⟨List.mem_map_of_mem here, by rw [keyed.2]⟩
    have apart := List.find?_eq_none.mp missing x member
    rw [keyed.1] at apart
    exact apart (decide_eq_true rfl)

variable [DecidableEq α]

theorem Filled.fsck (filled : Filled s entries) : hashFsck s = true := by
  obtain ⟨chains, linked, starts, counts, short, all⟩ := filled.bucketed.chains filled.nodup
  have counted := filled.counted
  simp only [List.length_map] at short
  have bins : (List.range s.tbl.numBuckets).all (fun i =>
      checkedWalk s.hh.hhNext s.hh.hhPrev (s.tbl.numItems + 1) none (s.tbl.buckets i).hhHead ==
        some (s.tbl.buckets i).count) = true := by
    refine List.all_eq_true.mpr fun i _ => beq_iff_eq.mpr ?_
    have := short i
    rw [starts i, counts i, Piece.checkedWalk (linked i) (by omega)]
  have sum : ((List.range s.tbl.numBuckets).map fun i => (s.tbl.buckets i).count).sum =
      s.tbl.numItems := by
    rw [counted, ← List.length_map Prod.fst, ← all.length_eq, List.length_flatMap]
    exact congrArg List.sum (List.map_congr_left fun i _ => counts i)
  have order : checkedWalk s.hh.next s.hh.prev (s.tbl.numItems + 1) none s.head =
      some s.tbl.numItems := by
    rw [filled.head, Piece.checkedWalk filled.linked (by rw [List.length_map]; omega),
      List.length_map, counted]
  rw [hashFsck]
  split
  · rfl
  · simp only [bins, sum, order, beq_self_eq_true, Bool.and_self]

theorem Represents.answers (represents : Represents s entries) : Answers s entries := by
  rcases represents with ⟨empty, rfl⟩ | filled
  · refine ⟨by rw [hashFsck, empty], by rw [hashIter, empty]; rfl, by rw [hashCount, empty]; rfl,
      fun key => ⟨none, by rw [hashFind, empty], fun x found => (by cases found),
        fun _ x => List.not_mem_nil⟩⟩
  · obtain ⟨first, heads⟩ := Option.ne_none_iff_exists'.mp filled.head_ne_none
    refine ⟨filled.fsck, ?_, ?_, filled.find⟩
    · rw [hashIter, filled.head, Forward.walk filled.linked.forward]
      rw [List.length_map, filled.counted]
      exact Nat.lt_succ_self _
    · rw [hashCount, heads]
      exact filled.counted

end Answers
section Changes
variable [DecidableEq α] {allocates : Nat → Bool}

/-- A change of the hash. -/
inductive Change (α : Type*)
  | add (x : α) (key : List UInt8)
  | delete (x : α)

def change (allocates : Nat → Bool) (s : Hash α) : Change α → Option (Hash α)
  | .add x key => hashAddKeyptr allocates s x key
  | .delete x => some (hashDelete s x)

/-- What it is for. -/
def changed (entries : List (α × List UInt8)) : Change α → List (α × List UInt8)
  | .add x key => entries ++ [(x, key)]
  | .delete x => entries.filter fun e => e.1 ≠ x

/-- The program adds what is not there and deletes what is. As many elements as `num_items` can
count are there at a time. -/
def Allowed (entries : List (α × List UInt8)) : List (Change α) → Prop
  | [] => True
  | c :: rest =>
    (match c with
      | .add x _ => x ∉ entries.map Prod.fst ∧ entries.length + 1 < 2 ^ 32
      | .delete x => x ∈ entries.map Prod.fst) ∧ Allowed (changed entries c) rest

/-- A run that is not stopped by a lack of memory gives what the entries say. -/
theorem changes_represents {changes : List (Change α)} (represents : Represents s entries)
    (allowed : Allowed entries changes) :
    (∃ s', changes.foldlM (change allocates) s = some s' ∧
      Represents s' (changes.foldl changed entries)) ∨
    ∃ before x key after s', changes = before ++ .add x key :: after ∧
      before.foldlM (change allocates) s = some s' ∧
      hashAddKeyptr allocates s' x key = none ∧ OutOfMemory allocates s' := by
  induction changes generalizing s entries with
  | nil => exact Or.inl ⟨s, rfl, represents⟩
  | cons c rest ih =>
    have going : ∀ s1, change allocates s c = some s1 → Represents s1 (changed entries c) →
        (∃ s', (c :: rest).foldlM (change allocates) s = some s' ∧
          Represents s' ((c :: rest).foldl changed entries)) ∨
        ∃ before x key after s', c :: rest = before ++ .add x key :: after ∧
          before.foldlM (change allocates) s = some s' ∧
          hashAddKeyptr allocates s' x key = none ∧ OutOfMemory allocates s' := by
      intro s1 done next
      rcases ih next allowed.2 with
        ⟨s', ran, represents'⟩ | ⟨before, x, key, after, s', split, ran, failed⟩
      · refine Or.inl ⟨s', ?_, represents'⟩
        rw [List.foldlM_cons, done]
        exact ran
      · refine Or.inr ⟨c :: before, x, key, after, s', by rw [split, List.cons_append], ?_, failed⟩
        rw [List.foldlM_cons, done]
        exact ran
    cases c with
    | add x key =>
      rcases hashAddKeyptr_spec allocates key represents allowed.1.1 allowed.1.2 with
        ⟨failed, memory⟩ | ⟨s1, done, next⟩
      · exact Or.inr ⟨[], x, key, rest, s, rfl, rfl, failed, memory⟩
      · exact going s1 done next
    | delete x => exact going _ rfl (hashDelete_spec represents allowed.1)

/-- From an empty hash, whatever is added and deleted: it answers as the entries do, or an element
was to be added for which there was no memory. -/
theorem hash_answers (allocates : Nat → Bool) (changes : List (Change α)) (s : Hash α)
    (empty : s.head = none) (allowed : Allowed [] changes) :
    (∃ s', changes.foldlM (change allocates) s = some s' ∧
      Answers s' (changes.foldl changed [])) ∨
    ∃ before x key after s', changes = before ++ .add x key :: after ∧
      before.foldlM (change allocates) s = some s' ∧
      hashAddKeyptr allocates s' x key = none ∧ OutOfMemory allocates s' := by
  refine (changes_represents (Or.inl ⟨empty, rfl⟩) allowed).imp ?_ id
  rintro ⟨s', ran, represents⟩
  exact ⟨s', ran, represents.answers⟩

/-- Two elements come and the first one goes. -/
theorem hash_answers_two :
    let unset : UtHashHandle Nat :=
      ⟨fun _ => none, fun _ => none, fun _ => none, fun _ => none, fun _ => [], fun _ => 0⟩
    let changes : List (Change Nat) := [.add 1 [97], .add 2 [98], .delete 1]
    (∃ s, changes.foldlM (change fun _ => true) ⟨none, hashMakeTable 0, unset⟩ = some s ∧
      Answers s [(2, [98])]) ∨
    ∃ before x key after s, changes = before ++ .add x key :: after ∧
      before.foldlM (change fun _ => true) ⟨none, hashMakeTable 0, unset⟩ = some s ∧
      hashAddKeyptr (fun _ => true) s x key = none ∧ OutOfMemory (fun _ => true) s :=
  hash_answers (fun _ => true) [.add 1 [97], .add 2 [98], .delete 1] ⟨none, hashMakeTable 0, _⟩ rfl
    ⟨by decide, by decide, by decide, trivial⟩

end Changes
end Uthash
