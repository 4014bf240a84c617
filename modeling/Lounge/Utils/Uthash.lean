import Lounge.Lib.LinkedChain
import Mathlib.Algebra.Order.Ring.Nat

/-!
# The hash table

`utils/uthash.h`, as far as the repository uses it: `HASH_ADD_KEYPTR`, `HASH_FIND`, `HASH_DELETE`,
`HASH_ITER` and `HASH_COUNT`, with the hash function of Jenkins, and the check `HASH_FSCK` that a
debug build makes after every change. Every element carries a handle with the links of two chains,
all elements in the order they were added and the elements of one bucket.

The links are kept as functions of the element. An element and its handle have the same name.
-/

namespace Uthash
open LinkedChain Function

section Jenkins

/-- `_hj_key[i]`, a signed character, in an unsigned sum. A byte that is not there adds nothing. -/
def charAt (key : List UInt8) (i : Nat) : UInt32 := (key.getD i 0).toInt8.toInt32.toUInt32

def wordAt (key : List UInt8) (i : Nat) : UInt32 :=
  charAt key i + (charAt key (i + 1) <<< 8) + (charAt key (i + 2) <<< 16) +
    (charAt key (i + 3) <<< 24)

/-- `HASH_JEN_MIX`. -/
def hashJenMix (a b c : UInt32) : UInt32 × UInt32 × UInt32 :=
  let a := (a - b - c) ^^^ (c >>> 13)
  let b := (b - c - a) ^^^ (a <<< 8)
  let c := (c - a - b) ^^^ (b >>> 13)
  let a := (a - b - c) ^^^ (c >>> 12)
  let b := (b - c - a) ^^^ (a <<< 16)
  let c := (c - a - b) ^^^ (b >>> 5)
  let a := (a - b - c) ^^^ (c >>> 3)
  let b := (b - c - a) ^^^ (a <<< 10)
  let c := (c - a - b) ^^^ (b >>> 15)
  (a, b, c)

/-- Twelve bytes at a time, and the cases of the rest, which fall through. -/
def hashJenLoop (keylen : UInt32) (key : List UInt8) (i j hashv : UInt32) : UInt32 :=
  if 12 ≤ key.length then
    let mixed := hashJenMix (i + wordAt key 0) (j + wordAt key 4) (hashv + wordAt key 8)
    hashJenLoop keylen (key.drop 12) mixed.1 mixed.2.1 mixed.2.2
  else
    (hashJenMix (i + wordAt key 0) (j + wordAt key 4)
      (hashv + keylen + (charAt key 8 <<< 8) + (charAt key 9 <<< 16) +
        (charAt key 10 <<< 24))).2.2
termination_by key.length
decreasing_by rw [List.length_drop]; omega

/-- `HASH_JEN`. -/
def hashJen (key : List UInt8) : UInt32 :=
  hashJenLoop (UInt32.ofNat key.length) key 0x9e3779b9 0x9e3779b9 0xfeedbeef

end Jenkins

def initialNumBuckets : Nat := 32
def bktCapacityThresh : Nat := 10

/-- The handles of all elements. -/
structure UtHashHandle (α : Type*) where
  prev : α → Option α
  next : α → Option α
  hhPrev : α → Option α
  hhNext : α → Option α
  key : α → List UInt8
  hashv : α → UInt32

structure UtHashBucket (α : Type*) where
  hhHead : Option α
  count : Nat
  expandMult : Nat

structure UtHashTable (α : Type*) where
  buckets : Nat → UtHashBucket α
  numBuckets : Nat
  log2NumBuckets : Nat
  numItems : Nat
  tail : α
  idealChainMaxlen : Nat
  nonidealItems : Nat
  ineffExpands : Nat
  noexpand : Nat

/-- A hash, `head` of the program, with the table that its elements share while there are any. -/
structure Hash (α : Type*) where
  head : Option α
  tbl : UtHashTable α
  hh : UtHashHandle α

/-- `HASH_TO_BKT`. -/
def hashToBkt (hashv : UInt32) (numBkts : Nat) : Nat := hashv.toNat &&& (numBkts - 1)

section Operations
variable {α : Type*} [DecidableEq α]

/-- `HASH_FIND_IN_BKT`, down the chain; the length of a key is compared before its bytes. -/
def hashFindInBkt (hh : UtHashHandle α) (key : List UInt8) : Nat → Option α → Option (Option α)
  | 0, _ => none
  | _ + 1, none => some none
  | fuel + 1, some out =>
    if (hh.key out).length = key.length ∧ hh.key out = key then some (some out)
    else hashFindInBkt hh key fuel (hh.hhNext out)

/-- `HASH_FIND`. No chain is longer than there are items. -/
def hashFind (s : Hash α) (key : List UInt8) : Option (Option α) :=
  match s.head with
  | none => some none
  | some _ =>
    hashFindInBkt s.hh key (s.tbl.numItems + 1)
      (s.tbl.buckets (hashToBkt (hashJen key) s.tbl.numBuckets)).hhHead

/-- An element in front of a chain. -/
def UtHashHandle.pushBkt (hh : UtHashHandle α) (hhHead : Option α) (add : α) : UtHashHandle α :=
  { hh with
    hhNext := update hh.hhNext add hhHead
    hhPrev := backTo (update hh.hhPrev add none) hhHead (some add) }

/-- An expansion under way. -/
structure Expanding (α : Type*) where
  hh : UtHashHandle α
  newBuckets : Nat → UtHashBucket α
  nonidealItems : Nat

/-- One element moves to its new bucket. -/
def expandItem (numBuckets idealChainMaxlen : Nat) (e : Expanding α) (thh : α) : Expanding α :=
  let bkt := hashToBkt (e.hh.hashv thh) (numBuckets * 2)
  let newbkt := e.newBuckets bkt
  let count := (newbkt.count + 1) % 2 ^ 32
  let nonideal := idealChainMaxlen < count
  { hh := e.hh.pushBkt newbkt.hhHead thh
    newBuckets := update e.newBuckets bkt
      ⟨some thh, count, if nonideal then count / idealChainMaxlen else newbkt.expandMult⟩
    nonidealItems := if nonideal then e.nonidealItems + 1 else e.nonidealItems }

/-- One old bucket. The next element is known before this one moves. -/
def expandChain (numBuckets idealChainMaxlen : Nat) :
    Nat → Expanding α → Option α → Option (Expanding α)
  | 0, _, _ => none
  | _ + 1, e, none => some e
  | fuel + 1, e, some thh =>
    let nxt := e.hh.hhNext thh
    expandChain numBuckets idealChainMaxlen fuel (expandItem numBuckets idealChainMaxlen e thh) nxt

/-- The items for each of twice the buckets, rounded up. -/
def idealLength (tbl : UtHashTable α) : Nat :=
  (tbl.numItems >>> (tbl.log2NumBuckets + 1)) +
    (if tbl.numItems &&& (tbl.numBuckets * 2 - 1) ≠ 0 then 1 else 0)

/-- The new buckets take the place of the old ones. -/
def expanded (s : Hash α) (e : Expanding α) : Hash α :=
  let tbl := s.tbl
  let ineffExpands := if tbl.numItems >>> 1 < e.nonidealItems then tbl.ineffExpands + 1 else 0
  { s with
    hh := e.hh
    tbl :=
      { tbl with
        buckets := e.newBuckets
        numBuckets := tbl.numBuckets * 2
        log2NumBuckets := tbl.log2NumBuckets + 1
        idealChainMaxlen := idealLength tbl
        nonidealItems := e.nonidealItems
        ineffExpands
        noexpand := if 1 < ineffExpands then 1 else tbl.noexpand } }

/-- `HASH_EXPAND_BUCKETS`. It is a trap if the number of buckets, an `unsigned`, runs over or the
ideal length is zero, by which it divides; `uthash_fatal` ends the program where there is no memory
for the new buckets. -/
def hashExpandBuckets (allocates : Nat → Bool) (s : Hash α) : Option (Hash α) :=
  let tbl := s.tbl
  if 2 ^ 32 ≤ 2 * tbl.numBuckets then none
  else if !allocates (2 * tbl.numBuckets) then none
  else if idealLength tbl = 0 then none
  else
    ((List.range tbl.numBuckets).foldlM
      (fun e i =>
        expandChain tbl.numBuckets (idealLength tbl) (tbl.numItems + 1) e (tbl.buckets i).hhHead)
      (⟨s.hh, fun _ => ⟨none, 0, 0⟩, 0⟩ : Expanding α)).map (expanded s)

/-- `HASH_ADD_TO_BKT`, before it looks at the length. -/
def inBkt (s : Hash α) (bkt : Nat) (add : α) : Hash α :=
  let head := s.tbl.buckets bkt
  { s with
    hh := s.hh.pushBkt head.hhHead add
    tbl := { s.tbl with
      buckets := update s.tbl.buckets bkt
        ⟨some add, (head.count + 1) % 2 ^ 32, head.expandMult⟩ } }

/-- `HASH_ADD_TO_BKT`. -/
def hashAddToBkt (allocates : Nat → Bool) (s : Hash α) (bkt : Nat) (add : α) :
    Option (Hash α) :=
  let s := inBkt s bkt add
  let head := s.tbl.buckets bkt
  if (head.expandMult + 1) * bktCapacityThresh % 2 ^ 32 ≤ head.count ∧ s.tbl.noexpand ≠ 1 then
    hashExpandBuckets allocates s
  else some s

/-- `HASH_MAKE_TABLE`. -/
def hashMakeTable (head : α) : UtHashTable α where
  buckets _ := ⟨none, 0, 0⟩
  numBuckets := initialNumBuckets
  log2NumBuckets := 5
  numItems := 0
  tail := head
  idealChainMaxlen := 0
  nonidealItems := 0
  ineffExpands := 0
  noexpand := 0

/-- The element at the end of the order, in `HASH_ADD_KEYPTR`. -/
def linkedLast (s : Hash α) (add : α) (key : List UInt8) : Hash α :=
  let hh := { s.hh with next := update s.hh.next add none, key := update s.hh.key add key }
  match s.head with
  | none => ⟨some add, hashMakeTable add, { hh with prev := update hh.prev add none }⟩
  | some head =>
    ⟨some head, { s.tbl with tail := add },
      { hh with
        next := update hh.next s.tbl.tail (some add)
        prev := update hh.prev add (some s.tbl.tail) }⟩

/-- All of `HASH_ADD_KEYPTR` that comes before the bucket. -/
def appended (s : Hash α) (add : α) (key : List UInt8) : Hash α :=
  let s := linkedLast s add key
  { s with
    tbl := { s.tbl with numItems := (s.tbl.numItems + 1) % 2 ^ 32 }
    hh := { s.hh with hashv := update s.hh.hashv add (hashJen key) } }

/-- `HASH_ADD_KEYPTR`. -/
def hashAddKeyptr (allocates : Nat → Bool) (s : Hash α) (add : α) (key : List UInt8) :
    Option (Hash α) :=
  if s.head = none ∧ !allocates initialNumBuckets then none
  else
    let s := appended s add key
    hashAddToBkt allocates s (hashToBkt (hashJen key) s.tbl.numBuckets) add

/-- `HASH_DEL_IN_BKT`. -/
def hashDelInBkt (s : Hash α) (bkt : Nat) (del : α) : Hash α :=
  let head := s.tbl.buckets bkt
  let hhHead := if head.hhHead = some del then s.hh.hhNext del else head.hhHead
  { s with
    tbl := { s.tbl with
      buckets := update s.tbl.buckets bkt ⟨hhHead, head.count - 1, head.expandMult⟩ }
    hh := { s.hh with
      hhNext := onTo s.hh.hhNext (s.hh.hhPrev del) (s.hh.hhNext del)
      hhPrev := backTo s.hh.hhPrev (s.hh.hhNext del) (s.hh.hhPrev del) } }

/-- The order without an element that is not the only one, in `HASH_DELETE`. -/
def unlinked (s : Hash α) (del : α) : Hash α :=
  let before := s.hh.prev del
  let after := s.hh.next del
  { s with
    head := if before = none then after else s.head
    tbl := { s.tbl with
      tail := if del = s.tbl.tail then before.getD s.tbl.tail else s.tbl.tail }
    hh := { s.hh with
      next := onTo s.hh.next before after
      prev := backTo s.hh.prev after before } }

/-- `HASH_DELETE`, of an element that is there. The table goes with the only one. -/
def hashDelete (s : Hash α) (del : α) : Hash α :=
  if s.hh.prev del = none ∧ s.hh.next del = none then { s with head := none }
  else
    let s := unlinked s del
    let s := hashDelInBkt s (hashToBkt (s.hh.hashv del) s.tbl.numBuckets) del
    { s with tbl := { s.tbl with numItems := s.tbl.numItems - 1 } }

/-- `HASH_ITER`: what `el` runs through. -/
def hashIter (s : Hash α) : Option (List α) := walk s.hh.next (s.tbl.numItems + 1) s.head

/-- `HASH_COUNT`. -/
def hashCount (s : Hash α) : Nat :=
  match s.head with
  | none => 0
  | some _ => s.tbl.numItems

/-- `HASH_FSCK`: no bucket and no order is out of joint, and all counts are right. -/
def hashFsck (s : Hash α) : Bool :=
  match s.head with
  | none => true
  | some _ =>
    let fuel := s.tbl.numItems + 1
    (List.range s.tbl.numBuckets).all (fun i =>
      checkedWalk s.hh.hhNext s.hh.hhPrev fuel none (s.tbl.buckets i).hhHead ==
        some (s.tbl.buckets i).count) &&
      ((List.range s.tbl.numBuckets).map fun i => (s.tbl.buckets i).count).sum ==
        s.tbl.numItems &&
      checkedWalk s.hh.next s.hh.prev fuel none s.head == some s.tbl.numItems

end Operations
end Uthash
