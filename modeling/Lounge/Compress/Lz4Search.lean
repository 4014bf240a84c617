import Lounge.Compress.Lz4Encoder

/-!
# How the encoder finds matches

Whatever the hash function, an entry of the table is an earlier place of the source. A match is
compared, not trusted, and counted to the first byte that differs or to the last five bytes.
-/

namespace Lz4Search
open FlatMemory LittleEndian StepLoop Lz4Decoder Lz4Format Lz4Encoder

/-- The source has the same bytes from these two places on. -/
def Agree (source : List UInt8) (ref ip n : Nat) : Prop :=
  ∀ k < n, source[ref + k]? = source[ip + k]?

section CommonBytes

theorem ctz_dvd {bits val n : Nat} (below : n ≤ ctz bits val) : 2 ^ n ∣ val := by
  induction bits generalizing val n with
  | zero =>
    obtain rfl : n = 0 := Nat.le_zero.mp below
    exact Nat.one_dvd _
  | succ bits ih =>
    rw [ctz] at below
    cases n with
    | zero => exact Nat.one_dvd _
    | succ n =>
      split at below
      · omega
      · next even =>
        have half : val = 2 * (val / 2) := by omega
        rw [half, Nat.pow_succ']
        exact Nat.mul_dvd_mul_left 2 (ih (by omega))

theorem ctz_double (bits val : Nat) : ctz (bits + 1) (2 * val) = ctz bits val + 1 := by
  have even : ¬2 * val % 2 = 1 := by omega
  have half : 2 * val / 2 = val := by omega
  rw [ctz, if_neg even, half]

theorem ctz_byte (bits val : Nat) : ctz (bits + 8) (256 * val) = ctz bits val + 8 := by
  have eight : 256 * val = 2 * (2 * (2 * (2 * (2 * (2 * (2 * (2 * val))))))) := by omega
  rw [eight]
  simp only [ctz_double]

theorem xor_eq_zero {x y : Nat} (zero : x ^^^ y = 0) : x = y := by
  calc x = x ^^^ y ^^^ y := by rw [Nat.xor_assoc, Nat.xor_self, Nat.xor_zero]
    _ = y := by rw [zero, Nat.zero_xor]

theorem natLE_cons_xor (x y : UInt8) (a b : List UInt8) :
    natLE (x :: a) ^^^ natLE (y :: b) =
      256 * (natLE a ^^^ natLE b) + (x.toNat ^^^ y.toNat) := by
  have hx := x.toNat_lt
  have hy := y.toNat_lt
  have low : (natLE (x :: a) ^^^ natLE (y :: b)) % 2 ^ 8 = x.toNat ^^^ y.toNat := by
    have left : natLE (x :: a) % 2 ^ 8 = x.toNat := by
      rw [natLE]
      omega
    have right : natLE (y :: b) % 2 ^ 8 = y.toNat := by
      rw [natLE]
      omega
    rw [Nat.xor_mod_two_pow, left, right]
  have high : (natLE (x :: a) ^^^ natLE (y :: b)) / 2 ^ 8 = natLE a ^^^ natLE b := by
    have left : natLE (x :: a) / 2 ^ 8 = natLE a := by
      rw [natLE]
      omega
    have right : natLE (y :: b) / 2 ^ 8 = natLE b := by
      rw [natLE]
      omega
    rw [Nat.xor_div_two_pow, left, right]
  omega

/-- The low zero bits of a difference count the bytes in front that are the same. -/
theorem ctz_natLE {a b : List UInt8} (length : a.length = b.length)
    (differ : natLE a ^^^ natLE b ≠ 0) :
    ctz (8 * a.length) (natLE a ^^^ natLE b) / 8 < a.length ∧
      (∀ k < ctz (8 * a.length) (natLE a ^^^ natLE b) / 8, a[k]? = b[k]?) ∧
      a[ctz (8 * a.length) (natLE a ^^^ natLE b) / 8]? ≠
        b[ctz (8 * a.length) (natLE a ^^^ natLE b) / 8]? := by
  induction a generalizing b with
  | nil =>
    cases b with
    | nil => exact absurd rfl differ
    | cons y b => cases length
  | cons x a ih =>
    cases b with
    | nil => cases length
    | cons y b =>
      have bits : 8 * (x :: a).length = 8 * a.length + 8 := by
        rw [List.length_cons]
        omega
      by_cases same : x = y
      · subst same
        rw [natLE_cons_xor, Nat.xor_self, Nat.add_zero] at differ ⊢
        have rest : natLE a ^^^ natLE b ≠ 0 := by
          intro zero
          rw [zero] at differ
          exact differ rfl
        have shift : (ctz (8 * a.length) (natLE a ^^^ natLE b) + 8) / 8 =
            ctz (8 * a.length) (natLE a ^^^ natLE b) / 8 + 1 := by omega
        obtain ⟨inside, before, here⟩ := ih (Nat.succ.inj length) rest
        rw [bits, ctz_byte, shift, List.length_cons]
        refine ⟨by omega, ?_, here⟩
        intro k small
        cases k with
        | zero => rfl
        | succ k => exact before k (by omega)
      · have first : ctz (8 * (x :: a).length) (natLE (x :: a) ^^^ natLE (y :: b)) < 8 := by
          by_contra long
          have divides := ctz_dvd (Nat.le_of_not_lt long)
          rw [natLE_cons_xor, show (2 : Nat) ^ 8 = 256 from rfl] at divides
          have low : 256 ∣ x.toNat ^^^ y.toNat :=
            (Nat.dvd_add_right (Nat.dvd_mul_right 256 _)).mp divides
          have small : x.toNat ^^^ y.toNat < 2 ^ 8 := Nat.xor_lt_two_pow x.toNat_lt y.toNat_lt
          have zero := Nat.eq_zero_of_dvd_of_lt low small
          exact same (UInt8.toNat_inj.mp (xor_eq_zero zero))
        rw [Nat.div_eq_of_lt first]
        refine ⟨Nat.succ_pos _, fun k small => absurd small (Nat.not_lt_zero _), ?_⟩
        intro heads
        exact same (Option.some.inj heads)

end CommonBytes
section Words
variable {source : List UInt8} {ref ip n : Nat}

theorem Agree.append {m : Nat} (first : Agree source ref ip n)
    (second : Agree source (ref + n) (ip + n) m) : Agree source ref ip (n + m) := by
  intro k small
  by_cases before : k < n
  · exact first k before
  · obtain ⟨j, rfl⟩ := Nat.exists_eq_add_of_le (Nat.le_of_not_lt before)
    rw [← Nat.add_assoc, ← Nat.add_assoc]
    exact second j (by omega)

theorem Agree.mono {m : Nat} (agree : Agree source ref ip n) (less : m ≤ n) :
    Agree source ref ip m := fun k small => agree k (by omega)

theorem Agree.drop {m : Nat} (agree : Agree source ref ip (n + m)) :
    Agree source (ref + n) (ip + n) m := by
  intro k small
  rw [Nat.add_assoc, Nat.add_assoc]
  exact agree (n + k) (by omega)

theorem word_eq (n : Nat) {p : Nat} (inside : p + n ≤ source.length) :
    word source n p = some ((source.drop p).take n) := if_pos inside

theorem getElem?_word {p k : Nat} (small : k < n) :
    ((source.drop p).take n)[k]? = source[p + k]? := by
  rw [List.getElem?_take_of_lt small, List.getElem?_drop]

theorem word_agree : (source.drop ref).take n = (source.drop ip).take n ↔
    Agree source ref ip n := by
  constructor
  · intro same k small
    rw [← getElem?_word (p := ref) small, same, getElem?_word small]
  · intro agree
    apply List.ext_getElem?
    intro k
    by_cases small : k < n
    · rw [getElem?_word small, getElem?_word small]
      exact agree k small
    · rw [List.getElem?_take_eq_none (Nat.le_of_not_lt small),
        List.getElem?_take_eq_none (Nat.le_of_not_lt small)]

/-- Words inside the source are the same where the source agrees with itself. -/
theorem sameWord_spec (source : List UInt8) (ref ip n : Nat) (before : ref ≤ ip)
    (inside : ip + n ≤ source.length) :
    ∃ same, sameWord source n ref ip = some same ∧ (same = true ↔ Agree source ref ip n) := by
  rw [sameWord, word_eq n (by omega), word_eq n inside]
  refine ⟨_, rfl, ?_⟩
  rw [beq_iff_eq, word_agree]

theorem hashValue_total (source : List UInt8) (v : Variant) (p : Nat)
    (inside : p + 4 ≤ source.length) :
    ∃ h, hashValue source v p = some h := by
  rw [hashValue, word_eq 4 inside]
  exact ⟨_, rfl⟩

end Words
section Counting
variable {source : List UInt8}

/-- A match counted this far: `n` more bytes do not agree, or would come too close to the end. -/
structure Counted (source : List UInt8) (ref ip n c : Nat) : Prop where
  agree : Agree source ref ip c
  inside : ip + c + lastLiterals ≤ source.length
  limit : source.length < ip + c + lastLiterals + n ∨ ¬Agree source (ref + c) (ip + c) n

theorem countWord_spec {ref ip n c : Nat} (before : ref ≤ ip) (positive : 0 < n)
    (counted : Counted source ref ip (n + n) c) :
    ∃ c', countWord source n (ip + c, ref + c) = some (ip + c', ref + c') ∧
      Counted source ref ip n c' := by
  obtain ⟨agree, inside, limit⟩ := counted
  have five : lastLiterals = 5 := rfl
  rw [countWord, matchlimit]
  by_cases room : ((ip + c : Nat) : Int) < (source.length : Int) - lastLiterals - (n - 1 : Nat)
  · obtain ⟨same, compared, iff⟩ := sameWord_spec source (ref + c)
      (ip + c) n (by omega) (by omega)
    rw [if_pos room, compared]
    cases same with
    | true =>
      have more := iff.mp rfl
      refine ⟨c + n, by rw [← Nat.add_assoc, ← Nat.add_assoc]; rfl, agree.append more, by omega, ?_⟩
      rcases limit with near | differ
      · exact Or.inl (by omega)
      · rw [← Nat.add_assoc, ← Nat.add_assoc]
        exact Or.inr fun further => differ (more.append further)
    | false =>
      have differ : ¬Agree source (ref + c) (ip + c) n := by
        rw [← iff]
        exact Bool.false_ne_true
      exact ⟨c, rfl, agree, inside, Or.inr differ⟩
  · rw [if_neg room]
    exact ⟨c, rfl, agree, inside, Or.inl (by omega)⟩

/-- Two different words agree in as many bytes as the low zero bits of the difference say. -/
theorem nbCommonBytes_spec {ref ip : Nat} (before : ref ≤ ip) (inside : ip + 8 ≤ source.length)
    (differ : natLE ((source.drop ref).take 8) ^^^ natLE ((source.drop ip).take 8) ≠ 0) :
    ∃ c < 8, nbCommonBytes
        (natLE ((source.drop ref).take 8) ^^^ natLE ((source.drop ip).take 8)) = c ∧
      Agree source ref ip c ∧ ¬Agree source (ref + c) (ip + c) 1 := by
  have left : ((source.drop ref).take 8).length = 8 := by
    rw [List.length_take, List.length_drop]
    omega
  have right : ((source.drop ip).take 8).length = 8 := by
    rw [List.length_take, List.length_drop]
    omega
  have common := ctz_natLE (left.trans right.symm) differ
  rw [left] at common
  obtain ⟨less, same, here⟩ := common
  refine ⟨_, less, Nat.shiftRight_eq_div_pow _ 3, fun k small => ?_, fun further => here ?_⟩
  · rw [← getElem?_word (n := 8) (by omega), same k small, getElem?_word (by omega)]
  · rw [getElem?_word less, getElem?_word less]
    exact further 0 Nat.one_pos

/-- A match is counted up to the first byte that differs, or the last five. -/
theorem countMatch_spec (source : List UInt8) (ref ip : Nat) (before : ref ≤ ip)
    (inside : ip + lastLiterals ≤ source.length) :
    ∃ c, countMatch source ip ref = some (ip + c) ∧ Counted source ref ip 1 c := by
  have five : lastLiterals = 5 := rfl
  have eight : stepSize = 8 := rfl
  fun_induction countMatch source ip ref with
  | case1 ip ref room a b left right diff zero ih =>
    rw [matchlimit] at room
    rw [word_eq 8 (by omega), Option.some.injEq] at left right
    obtain ⟨c, counted, ⟨agree, inside', limit⟩⟩ := ih (by omega) (by omega)
    have words : Agree source ref ip 8 := by
      have numbers := xor_eq_zero zero
      subst left
      subst right
      apply word_agree.mp (natLE_inj _ numbers)
      rw [List.length_take, List.length_take, List.length_drop, List.length_drop]
      omega
    rw [counted, Nat.add_assoc]
    rw [Nat.add_assoc ip, Nat.add_assoc ref] at limit
    rw [Nat.add_assoc ip] at inside'
    exact ⟨stepSize + c, rfl, words.append agree, inside', limit⟩
  | case2 ip ref room a b left right diff nonzero =>
    rw [matchlimit] at room
    rw [word_eq 8 (by omega), Option.some.injEq] at left right
    subst left
    subst right
    obtain ⟨c, small, count, agree, differ⟩ := nbCommonBytes_spec before (by omega) nonzero
    exact ⟨c, by rw [← count], agree, by omega, Or.inr differ⟩
  | case3 ip ref room words =>
    rw [matchlimit] at room
    exact absurd (word_eq 8 (by omega)) (words _ _ (word_eq 8 (by omega)))
  | case4 ip ref beyond =>
    rw [matchlimit] at beyond
    have start : Counted source ref ip (4 + 4) 0 :=
      ⟨fun k small => absurd small (Nat.not_lt_zero _), inside, Or.inl (by omega)⟩
    obtain ⟨four, counted4, spec4⟩ := countWord_spec (n := 4) before (by decide) start
    obtain ⟨two, counted2, spec2⟩ := countWord_spec (n := 2) before (by decide) spec4
    obtain ⟨one, counted1, spec1⟩ := countWord_spec (n := 1) before (by decide) spec2
    rw [Nat.add_zero, Nat.add_zero] at counted4
    refine ⟨one, ?_, spec1⟩
    simp only [counted4, counted2, counted1, Option.bind_eq_bind, Option.bind_some]

/-- A match goes back to an earlier one. -/
theorem catchUp_spec (source : List UInt8) (anchor ref ip : Nat) (behind : anchor ≤ ip) :
    ∃ c, (catchUp source anchor ip ref).1 + c = ip ∧ (catchUp source anchor ip ref).2 + c = ref ∧
      anchor ≤ (catchUp source anchor ip ref).1 ∧
      Agree source (catchUp source anchor ip ref).2 (catchUp source anchor ip ref).1 c := by
  fun_induction catchUp source anchor ip ref with
  | case1 ip ref back ih =>
    obtain ⟨c, atIp, atRef, inside, agree⟩ := ih (by omega)
    refine ⟨c + 1, by omega, by omega, inside, agree.append ?_⟩
    intro k small
    obtain rfl : k = 0 := by omega
    rw [atIp, atRef]
    exact back.2.symm
  | case2 ip ref stay =>
    exact ⟨0, rfl, rfl, behind, fun k small => absurd small (Nat.not_lt_zero _)⟩
  | case3 ip ref =>
    exact ⟨0, rfl, rfl, behind, fun k small => absurd small (Nat.not_lt_zero _)⟩

end Counting
section Finding
variable {v : Variant} {source : List UInt8}

theorem HashTable.put_lt {table : HashTable} {h entry bound : Nat}
    (below : ∀ i, table i < bound) (small : entry < bound) : ∀ i, table.put h entry i < bound := by
  intro i
  rw [HashTable.put]
  split
  · exact small
  · exact below i

/-- A match found: near enough for the code, compared, and no later than any place entered. -/
structure Found (v : Variant) (source : List UInt8) (ip : Nat) (found : Match) : Prop where
  later : ip ≤ found.ip
  early : found.ip + mfLimit < source.length
  earlier : found.ref < found.ip
  near : v.near found.ref found.ip = true
  agree : Agree source found.ref found.ip 4
  entries : ∀ h, found.table h < found.ip + 1

theorem findMatch_spec (v : Variant) (source : List UInt8) {ip : Nat} {table : HashTable}
    (forwardH : Nat)
    (entries : ∀ h, table h < ip) (inside : ip + mfLimit ≤ source.length + 1) :
    ∃ ret, findMatch source v ip forwardH table = some ret ∧
      ∀ found, ret = some found → Found v source ip found := by
  have twelve : mfLimit = 12 := rfl
  refine loop_total (fun s => ip ≤ s.forwardIp ∧ 64 ≤ s.findMatchAttempts ∧
    ∀ h, s.table h < s.forwardIp) (fun s => source.length + 1 - s.forwardIp - mfLimit) ?_
    ⟨Nat.le_refl _, Nat.le_add_right 64 3, entries⟩ (by simp only; omega)
  rintro ⟨forwardIp, forwardH, attempts, table⟩ ⟨later, many, below⟩
  simp only at later many below
  have step : 1 ≤ attempts >>> skipStrength := by
    rw [Nat.shiftRight_eq_div_pow]
    exact (Nat.le_div_iff_mul_le (by decide)).mpr (by
      have power : 2 ^ skipStrength = 64 := rfl
      omega)
  rw [findRound]
  simp only
  generalize attempts >>> skipStrength = stride at step
  by_cases beyond : mflimit source < (forwardIp + stride : Nat)
  · rw [if_pos beyond]
    exact Or.inr ⟨none, rfl, fun found none => by cases none⟩
  · rw [mflimit] at beyond
    obtain ⟨hash, hashed⟩ := hashValue_total source v (forwardIp + stride)
      (by omega)
    have entered : forwardIp % 2 ^ v.entryBits < forwardIp + 1 :=
      Nat.lt_succ_of_le (Nat.mod_le _ _)
    have table' := HashTable.put_lt (h := forwardH) (fun h => Nat.lt_succ_of_lt (below h)) entered
    rw [mflimit, if_neg beyond, hashed]
    simp only [Option.bind_eq_bind, Option.bind_some]
    -- the next look is later, and what was entered lies before it
    have again : ip ≤ forwardIp + stride ∧ 64 ≤ attempts + 1 ∧
        (∀ h, HashTable.put table forwardH (forwardIp % 2 ^ v.entryBits) h <
          forwardIp + stride) ∧
        source.length + 1 - (forwardIp + stride) - mfLimit <
          source.length + 1 - forwardIp - mfLimit :=
      ⟨by omega, by omega, fun h => Nat.lt_of_lt_of_le (table' h) (by omega), by omega⟩
    cases near : v.near (table forwardH) forwardIp with
    | false => exact Or.inl ⟨_, rfl, ⟨again.1, again.2.1, again.2.2.1⟩, again.2.2.2⟩
    | true =>
      obtain ⟨same, compared, iff⟩ := sameWord_spec source
        (table forwardH) forwardIp 4 (Nat.le_of_lt (below _)) (by omega)
      rw [compared]
      cases same with
      | false => exact Or.inl ⟨_, rfl, ⟨again.1, again.2.1, again.2.2.1⟩, again.2.2.2⟩
      | true =>
        refine Or.inr ⟨_, rfl, fun found here => ?_⟩
        obtain rfl := Option.some.inj here
        exact ⟨later, by simp only; omega, below _, near, iff.mp rfl, table'⟩

end Finding
end Lz4Search
