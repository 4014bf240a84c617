import Mathlib.Data.List.Basic
import Mathlib.Algebra.Order.Ring.Nat
import Mathlib.Tactic.Common

/-!
# Flat byte memory

A block is seen from its first byte on and without an upper end: the bytes of
the allocation come first, whatever lies behind it follows. An access that
leaves the allocation therefore has a value, the one found there, and whether
an access stays inside is a separate statement about offsets.
-/

namespace FlatMemory

abbrev Memory := Nat → UInt8

/-- What holds of the 256 bytes. -/
theorem forall_byte {p : UInt8 → Prop} (all : ∀ n < 256, p (UInt8.ofNat n)) (b : UInt8) :
    p b := by
  have here := all b.toNat b.toNat_lt
  rwa [UInt8.ofNat_toNat] at here

/-- `len` bytes from offset `off` on. -/
def read (m : Memory) (off len : Nat) : List UInt8 := (List.range' off len).map m

/-- A block holding `bs`, followed by the bytes of `rest`. -/
def load (bs : List UInt8) (rest : Memory) : Memory := fun i => bs.getD i (rest i)

/-- `memcpy` of `bs` to offset `off`. -/
def store (m : Memory) (off : Nat) (bs : List UInt8) : Memory :=
  fun i => if off ≤ i ∧ i < off + bs.length then bs.getD (i - off) 0 else m i

/-- `memmove` of `n` bytes from `src` to `dst`; the two ranges may overlap. -/
def move (m : Memory) (dst src n : Nat) : Memory :=
  fun i => if dst ≤ i ∧ i < dst + n then m (src + (i - dst)) else m i

/-- `realloc` keeps the first `kept` bytes; the rest of the new block is `fresh`. -/
def regrow (m : Memory) (kept : Nat) (fresh : Memory) : Memory :=
  fun i => if i < kept then m i else fresh i

@[simp] theorem length_read (m : Memory) (off len : Nat) : (read m off len).length = len := by
  simp [read]

@[simp] theorem read_zero (m : Memory) (off : Nat) : read m off 0 = [] := rfl

theorem getElem_read (m : Memory) (off len i : Nat) (h : i < (read m off len).length) :
    (read m off len)[i] = m (off + i) := by
  simp [read]

theorem read_append (m : Memory) (off a b : Nat) :
    read m off a ++ read m (off + a) b = read m off (a + b) := by
  simp only [read, ← List.map_append, List.range'_append_1]

theorem take_read (m : Memory) (off : Nat) {len n : Nat} (inside : len ≤ n) :
    (read m off n).take len = read m off len := by
  obtain ⟨rest, rfl⟩ := Nat.exists_eq_add_of_le inside
  rw [← read_append, List.take_left' (length_read _ _ _)]

theorem drop_read (m : Memory) (off n len : Nat) :
    (read m off n).drop len = read m (off + len) (n - len) := by
  by_cases inside : len ≤ n
  · obtain ⟨rest, rfl⟩ := Nat.exists_eq_add_of_le inside
    rw [← read_append, List.drop_left' (length_read _ _ _), Nat.add_sub_cancel_left]
  · rw [List.drop_of_length_le (by rw [length_read]; omega), Nat.sub_eq_zero_of_le (by omega),
      read_zero]

/-- Two windows with the same bytes read the same, wherever they start. -/
theorem read_shift {m m' : Memory} {off off' len : Nat}
    (same : ∀ i, i < len → m (off + i) = m' (off' + i)) :
    read m off len = read m' off' len := by
  apply List.ext_getElem
  · simp
  · intro i hi _
    rw [getElem_read, getElem_read]
    exact same i (by simpa using hi)

theorem read_congr {m m' : Memory} {off len : Nat}
    (same : ∀ i, off ≤ i → i < off + len → m i = m' i) :
    read m off len = read m' off len :=
  read_shift fun i hi => same (off + i) (by omega) (by omega)

theorem read_eq_iff {m : Memory} {off : Nat} {bs : List UInt8} :
    read m off bs.length = bs ↔ ∀ i (h : i < bs.length), m (off + i) = bs[i] := by
  constructor
  · intro h i hi
    have hr : i < (read m off bs.length).length := by simpa using hi
    rw [← getElem_read m off bs.length i hr]
    exact List.getElem_of_eq h hr
  · intro h
    apply List.ext_getElem
    · simp
    · intro i hi hi'
      rw [getElem_read]
      exact h i hi'

theorem load_of_lt {bs : List UInt8} {rest : Memory} {i : Nat} (h : i < bs.length) :
    load bs rest i = bs[i] := by
  simp [load, h]

/-- Reading inside the loaded bytes does not see what lies behind them. -/
theorem read_load {bs : List UInt8} {rest : Memory} {off len : Nat}
    (inside : off + len ≤ bs.length) :
    read (load bs rest) off len = (bs.drop off).take len := by
  apply List.ext_getElem
  · simp
    omega
  · intro i hi hi'
    have hil : i < len := by simpa using hi
    rw [getElem_read, load_of_lt (by omega)]
    simp

theorem read_load_append (pre bs tail : List UInt8) (rest : Memory) (off : Nat)
    (hoff : off = pre.length) :
    read (load (pre ++ bs ++ tail) rest) off bs.length = bs := by
  subst hoff
  rw [read_load (by simp)]
  simp

theorem store_inside {m : Memory} {off : Nat} {bs : List UInt8} {i : Nat}
    (h : i < bs.length) : store m off bs (off + i) = bs[i] := by
  simp [store, h]

theorem store_outside {m : Memory} {off : Nat} {bs : List UInt8} {i : Nat}
    (h : i < off ∨ off + bs.length ≤ i) : store m off bs i = m i := by
  simp only [store]
  rw [if_neg (by omega)]

@[simp] theorem store_nil (m : Memory) (off : Nat) : store m off [] = m := by
  funext i
  exact store_outside (by rw [List.length_nil]; omega)

@[simp] theorem read_store_self (m : Memory) (off : Nat) (bs : List UInt8) :
    read (store m off bs) off bs.length = bs :=
  read_eq_iff.mpr fun _ hi => store_inside hi

theorem read_store_outside {m : Memory} {off : Nat} {bs : List UInt8} {o len : Nat}
    (h : o + len ≤ off ∨ off + bs.length ≤ o) :
    read (store m off bs) o len = read m o len :=
  read_congr fun _ h1 h2 => store_outside (by omega)

/-- A window that starts with the copied bytes and ends inside them. -/
theorem read_store_prefix {m : Memory} {off : Nat} {bs : List UInt8} {len : Nat}
    (inside : len ≤ bs.length) : read (store m off bs) off len = bs.take len := by
  rw [← take_read _ _ inside, read_store_self]

/-- A window over the last of the copied bytes. -/
theorem read_store_suffix (m : Memory) (off : Nat) (pre bs : List UInt8) :
    read (store m off (pre ++ bs)) (off + pre.length) bs.length = bs := by
  have back := drop_read (store m off (pre ++ bs)) off (pre ++ bs).length pre.length
  rw [read_store_self, List.drop_left, List.length_append, Nat.add_sub_cancel_left] at back
  exact back.symm

/-- A copy that starts inside a text or at its end replaces what it covers. -/
theorem read_store_splice (m : Memory) {off n : Nat} (bs : List UInt8) (inside : off ≤ n) :
    read (store m off bs) 0 (max n (off + bs.length)) =
      (read m 0 n).take off ++ bs ++ (read m 0 n).drop (off + bs.length) := by
  have split : max n (off + bs.length) = off + bs.length + (n - (off + bs.length)) := by omega
  have before : read (store m off bs) 0 off = read m 0 off := read_store_outside (by omega)
  have copied : read (store m off bs) (0 + off) bs.length = bs := by
    rw [Nat.zero_add, read_store_self]
  have behind : read (store m off bs) (0 + (off + bs.length)) (n - (off + bs.length)) =
      read m (0 + (off + bs.length)) (n - (off + bs.length)) := read_store_outside (by omega)
  rw [split, ← read_append, ← read_append, before, copied, behind, take_read _ _ inside,
    drop_read]

/-- A copy to the end of a text goes on with it, as far as one looks. -/
theorem read_store_end_of_append (m : Memory) (n : Nat) (bs tail : List UInt8) :
    read (store m n (bs ++ tail)) 0 (n + bs.length) = read m 0 n ++ bs := by
  have before : read (store m n (bs ++ tail)) 0 n = read m 0 n := read_store_outside (by omega)
  have copied : read (store m n (bs ++ tail)) (0 + n) bs.length = bs := by
    rw [Nat.zero_add, read_store_prefix (by simp), List.take_left]
  rw [← read_append, before, copied]

theorem read_store_end (m : Memory) (n : Nat) (bs : List UInt8) :
    read (store m n bs) 0 (n + bs.length) = read m 0 n ++ bs := by
  have whole := read_store_end_of_append m n bs []
  rwa [List.append_nil] at whole

/-- A copy that goes on where the last one is to end, over what came behind it. -/
theorem store_append {m : Memory} {off : Nat} {a t b : List UInt8} (covers : t.length ≤ b.length) :
    store (store m off (a ++ t)) (off + a.length) b = store m off (a ++ b) := by
  funext i
  by_cases second : off + a.length ≤ i ∧ i < off + a.length + b.length
  · obtain ⟨k, rfl⟩ := Nat.exists_eq_add_of_le second.1
    have inside : k < b.length := by omega
    have whole : a.length + k < (a ++ b).length := by
      rw [List.length_append]
      omega
    rw [store_inside inside, Nat.add_assoc, store_inside whole,
      List.getElem_append_right (by omega)]
    simp
  · rw [store, if_neg second]
    by_cases first : off ≤ i ∧ i < off + a.length
    · obtain ⟨k, rfl⟩ := Nat.exists_eq_add_of_le first.1
      have inside : k < a.length := by omega
      rw [store_inside (by rw [List.length_append]; omega),
        store_inside (by rw [List.length_append]; omega), List.getElem_append_left inside,
        List.getElem_append_left inside]
    · rw [store_outside (by rw [List.length_append]; omega),
        store_outside (by rw [List.length_append]; omega)]

/-- A byte, and a copy behind it. -/
theorem store_cons (m : Memory) (off : Nat) (b : UInt8) (bs : List UInt8) :
    store (store m off [b]) (off + 1) bs = store m off (b :: bs) :=
  store_append (a := [b]) (t := []) (Nat.zero_le _)

theorem move_inside (m : Memory) (dst src : Nat) {n i : Nat} (h : i < n) :
    move m dst src n (dst + i) = m (src + i) := by
  simp [move, h]

theorem move_outside {m : Memory} {dst src n i : Nat} (h : i < dst ∨ dst + n ≤ i) :
    move m dst src n i = m i := by
  simp only [move]
  rw [if_neg (by omega)]

theorem read_move_outside {m : Memory} {dst src n o len : Nat}
    (h : o + len ≤ dst ∨ dst + n ≤ o) :
    read (move m dst src n) o len = read m o len :=
  read_congr fun _ h1 h2 => move_outside (by omega)

theorem read_move_inside {m : Memory} {dst src n o len : Nat} (h : o + len ≤ n) :
    read (move m dst src n) (dst + o) len = read m (src + o) len := by
  apply read_shift
  intro i hi
  have := move_inside m dst src (n := n) (i := o + i) (by omega)
  simpa only [Nat.add_assoc] using this

@[simp] theorem move_self (m : Memory) (off n : Nat) : move m off off n = m := by
  funext i
  by_cases inside : off ≤ i ∧ i < off + n
  · rw [move, if_pos inside]
    congr 1
    omega
  · rw [move, if_neg inside]

/-- What lies behind a range moved down over it: the range is cut out. -/
theorem read_move_cut (m : Memory) {off len n : Nat} (inside : off + len ≤ n) :
    read (move m off (off + len) (n - (off + len))) 0 (n - len) =
      (read m 0 n).take off ++ (read m 0 n).drop (off + len) := by
  have split : n - len = off + (n - (off + len)) := by omega
  have before : read (move m off (off + len) (n - (off + len))) 0 off = read m 0 off :=
    read_move_outside (by omega)
  have moved : read (move m off (off + len) (n - (off + len))) (0 + off) (n - (off + len)) =
      read m (0 + (off + len)) (n - (off + len)) := by
    rw [Nat.zero_add, Nat.zero_add]
    exact read_move_inside (o := 0) (by omega)
  rw [split, ← read_append, before, moved, take_read _ _ (by omega), drop_read]

theorem regrow_of_lt {m fresh : Memory} {kept i : Nat} (h : i < kept) :
    regrow m kept fresh i = m i := by
  simp [regrow, h]

theorem regrow_of_ge {m fresh : Memory} {kept i : Nat} (h : kept ≤ i) :
    regrow m kept fresh i = fresh i := by
  simp only [regrow]
  rw [if_neg (by omega)]

theorem read_regrow {m fresh : Memory} {kept o len : Nat} (h : o + len ≤ kept) :
    read (regrow m kept fresh) o len = read m o len :=
  read_congr fun _ _ h2 => regrow_of_lt (by omega)

end FlatMemory
