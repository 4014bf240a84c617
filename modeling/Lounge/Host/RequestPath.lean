import Lounge.Lib.FlatMemory
import Mathlib.Tactic.Push

/-!
# The path of a request

How `ngx_http_loungeact_handler` cuts a URI other than `/` into the names of a database and a
document. The URI lies in memory without a terminator; offsets count from its first byte. Where a
second slash is found, the length before it is taken as `data - slash`.
-/

namespace RequestPath
open FlatMemory

/-- `ngx_strnstr(s1, s2, len)`, from an offset of the memory on. -/
abbrev Strnstr := Memory → Nat → List UInt8 → UInt64 → Option Nat

/-- Which of the two `ngx_pcalloc` calls succeed. -/
structure PathCalls where
  dbname : Bool := true
  docname : Bool := true

/-- A block of the pool. -/
structure PathBuffer where
  size : UInt64
  bytes : Memory

/-- `ngx_pcalloc`, which clears the block. -/
def ngxPcalloc (allocated : Bool) (size : UInt64) : Option PathBuffer :=
  if allocated then some ⟨size, fun _ => 0⟩ else none

/-- No terminator in the `i` bytes from `src` on. -/
def untilNul (m : Memory) (src i : Nat) : Bool := (List.range i).all fun j => m (src + j) != 0

/-- The arguments of one `strncpy`, with the room there is at its destination. -/
structure Copy where
  src : Nat
  count : UInt64
  room : UInt64

/-- `strncpy` to the start of a block: the string at `src`, and zeros behind it. NULL is only
written to if there is something to write. -/
def strncpy (m : Memory) (dst : Option PathBuffer) (src : Nat) (count : UInt64) :
    Option (Option PathBuffer) :=
  match dst with
  | none => if count = 0 then some none else none
  | some block =>
    some (some { block with
      bytes := fun i =>
        if i < count.toNat then (if untilNul m src i then m (src + i) else 0) else block.bytes i })

/-- The two names, and the copies made for them. -/
structure PathNames where
  dbname : Option PathBuffer
  docname : Option PathBuffer
  copies : List Copy

/-- The lines of `ngx_http_loungeact_handler` that cut the URI of `n` bytes; `none` is a trap. -/
def requestPath (ngxStrnstr : Strnstr) (calls : PathCalls) (m : Memory) (n : UInt64) :
    Option PathNames :=
  let slash := ngxStrnstr m 1 [47] n
  let len : UInt64 := match slash with
    | some p => 0 - UInt64.ofNat p
    | none => n
  match strncpy m (ngxPcalloc calls.dbname len) 1 (len - 1) with
  | none => none
  | some dbname =>
    if len ≤ n - 1 then
      match slash with
      | none => none
      | some p =>
        (strncpy m (ngxPcalloc calls.docname (n - len)) (p + 1) (n - len - 1)).map fun docname =>
          ⟨dbname, docname, [⟨1, len - 1, len⟩, ⟨p + 1, n - len - 1, n - len⟩]⟩
    else some ⟨dbname, none, [⟨1, len - 1, len⟩]⟩

/-- The documented behaviour of `ngx_strnstr` for one slash: the first one among `len` bytes, if
no terminator comes before it. -/
def FindsSlash (ngxStrnstr : Strnstr) : Prop :=
  ∀ m off len i, ngxStrnstr m off [47] len = some i ↔
    off ≤ i ∧ i < off + len.toNat ∧ m i = 47 ∧ ∀ j, off ≤ j → j < i → m j ≠ 47 ∧ m j ≠ 0

/-- The slash that ends the name of the database in a URI of `n` bytes. -/
structure NextSlash (m : Memory) (n p : Nat) : Prop where
  behind : 1 ≤ p
  inside : p < n
  slash : m p = 47
  first : ∀ j, 1 ≤ j → j < p → m j ≠ 47

/-- A buffer holds `k` bytes of the memory, and a terminator behind them. -/
structure Holds (b : PathBuffer) (m : Memory) (src k : Nat) : Prop where
  room : k < b.size.toNat
  bytes : ∀ i, i < k → b.bytes i = m (src + i)
  terminated : b.bytes k = 0

/-- What `strncpy` reads lies in the URI, and what it writes in its buffer. -/
structure Copy.Inside (m : Memory) (n : Nat) (c : Copy) : Prop where
  reads : ∀ i, i < c.count.toNat → untilNul m c.src i = true → c.src + i < n
  writes : c.count.toNat ≤ c.room.toNat

/-- The URI is cut at its second slash. -/
structure SplitsPath (m : Memory) (n : Nat) (names : PathNames) : Prop where
  document : ∀ p, NextSlash m n p →
    (∃ b ∈ names.dbname, Holds b m 1 (p - 1)) ∧ ∃ d ∈ names.docname, Holds d m (p + 1) (n - p - 1)
  database : (∀ p, ¬NextSlash m n p) →
    (∃ b ∈ names.dbname, Holds b m 1 (n - 1)) ∧ names.docname = none
  inside : ∀ c ∈ names.copies, c.Inside m n

/-- No terminator stands before another byte of a stretch of the URI. -/
def Clean (m : Memory) (start n : Nat) : Prop :=
  ∀ i j, start ≤ i → i < j → j < n → m i = 0 → m j = 0

/-- A slash at `p`, and neither a slash nor a terminator between the first byte and it. -/
structure SlashAt (m : Memory) (p : Nat) : Prop where
  behind : 1 ≤ p
  slash : m p = 47
  first : ∀ j, 1 ≤ j → j < p → m j ≠ 47 ∧ m j ≠ 0

section Copies
variable {m : Memory}

theorem untilNul_iff (src i : Nat) :
    untilNul m src i = true ↔ ∀ j, j < i → m (src + j) ≠ 0 := by
  simp [untilNul]

/-- What is copied from a clean stretch is the stretch. -/
theorem copied_clean {src n : Nat} (clean : Clean m src n) {i : Nat} (inside : src + i < n) :
    (if untilNul m src i then m (src + i) else 0) = m (src + i) := by
  split
  · rfl
  · rename_i stopped
    rw [untilNul_iff] at stopped
    push Not at stopped
    obtain ⟨j, before, zero⟩ := stopped
    exact (clean (src + j) (src + i) (by omega) (by omega) inside zero).symm

/-- And only a clean stretch is copied whole. -/
theorem clean_of_copied {src n : Nat}
    (copied : ∀ i, src + i < n → (if untilNul m src i then m (src + i) else 0) = m (src + i)) :
    Clean m src n := by
  intro i j start before inside zero
  have here := copied (j - src) (by omega)
  have stopped : ¬untilNul m src (j - src) = true := by
    rw [untilNul_iff]
    intro none
    exact none (i - src) (by omega) (by rwa [Nat.add_sub_cancel' start])
  rw [if_neg stopped, Nat.add_sub_cancel' (by omega)] at here
  exact here.symm

/-- What `strncpy` makes of a cleared block. -/
def copyOf (m : Memory) (src : Nat) (count : UInt64) : Memory := fun i =>
  if i < count.toNat then (if untilNul m src i then m (src + i) else 0) else 0

theorem strncpy_allocated (m : Memory) (size : UInt64) (src : Nat) (count : UInt64) :
    strncpy m (ngxPcalloc true size) src count = some (some ⟨size, copyOf m src count⟩) := rfl

theorem strncpy_failed (m : Memory) (size : UInt64) (src : Nat) (count : UInt64) :
    strncpy m (ngxPcalloc false size) src count = if count = 0 then some none else none := rfl

/-- A name that is copied with its length is the name if it is clean. -/
theorem holds_copyOf_iff (m : Memory) (src : Nat) {size count : UInt64} {k : Nat}
    (whole : count.toNat = k) (room : k < size.toNat) :
    Holds ⟨size, copyOf m src count⟩ m src k ↔ Clean m src (src + k) := by
  constructor
  · intro holds
    apply clean_of_copied
    intro i inside
    have byte := holds.bytes i (by omega)
    simpa [copyOf, whole, show i < k by omega] using byte
  · intro clean
    refine ⟨room, ?_, ?_⟩
    · intro i inside
      simp only [copyOf, whole, if_pos inside]
      exact copied_clean clean (by omega)
    · simp [copyOf, whole]

theorem copy_inside {n src : Nat} {count room : UInt64} (reads : src + count.toNat ≤ n)
    (writes : count.toNat ≤ room.toNat) : Copy.Inside m n ⟨src, count, room⟩ := by
  refine ⟨?_, writes⟩
  intro i before _
  dsimp only at before ⊢
  omega

end Copies

section Cases
variable {ngxStrnstr : Strnstr} {m : Memory} {n : UInt64}

theorem slashAt_of_found (finds : FindsSlash ngxStrnstr) {p : Nat}
    (found : ngxStrnstr m 1 [47] n = some p) : SlashAt m p ∧ p ≤ n.toNat := by
  obtain ⟨behind, inside, slash, first⟩ := (finds m 1 n p).mp found
  exact ⟨⟨behind, slash, first⟩, by omega⟩

theorem not_slashAt_of_missed (finds : FindsSlash ngxStrnstr)
    (missed : ngxStrnstr m 1 [47] n = none) (p : Nat) (inside : p ≤ n.toNat) : ¬SlashAt m p := by
  intro slash
  have found := (finds m 1 n p).mpr ⟨slash.behind, by omega, slash.slash, slash.first⟩
  rw [missed] at found
  cases found

theorem SlashAt.unique {p q : Nat} (hp : SlashAt m p) (hq : SlashAt m q) : p = q := by
  rcases Nat.lt_trichotomy p q with before | same | behind
  · exact absurd hp.slash (hq.first p hp.behind before).1
  · exact same
  · exact absurd hq.slash (hp.first q hq.behind behind).1

/-- The next slash of a URI is the one that is found. -/
theorem SlashAt.next {p q k : Nat} (slash : SlashAt m p) (other : NextSlash m k q) : q = p := by
  rcases Nat.lt_trichotomy q p with before | same | behind
  · exact absurd other.slash (slash.first q other.behind before).1
  · exact same
  · exact absurd slash.slash (other.first p slash.behind behind)

theorem SlashAt.nextSlash {p k : Nat} (slash : SlashAt m p) (inside : p < k) : NextSlash m k p :=
  ⟨slash.behind, inside, slash.slash, fun j start before => (slash.first j start before).1⟩

/-- A slash right behind a URI is none of its own. -/
theorem SlashAt.alone {p : Nat} (slash : SlashAt m p) (q : Nat) : ¬NextSlash m p q := by
  intro other
  have inside := other.inside
  rw [slash.next other] at inside
  exact Nat.lt_irrefl p inside

theorem toNat_pred {k : UInt64} (pos : 1 ≤ k.toNat) : (k - 1).toNat = k.toNat - 1 := by
  rw [UInt64.toNat_sub_of_le _ _ (by rw [UInt64.le_iff_toNat_le]; exact pos)]
  rfl

theorem requestPath_missed (missed : ngxStrnstr m 1 [47] n = none) (long : 2 ≤ n.toNat)
    (calls : PathCalls) :
    requestPath ngxStrnstr calls m n =
      if calls.dbname then some ⟨some ⟨n, copyOf m 1 (n - 1)⟩, none, [⟨1, n - 1, n⟩]⟩
      else none := by
  have pred := toNat_pred (k := n) (by omega)
  have rest : n - 1 ≠ 0 := by
    intro zero
    rw [zero] at pred
    simp at pred
    omega
  have short : ¬n ≤ n - 1 := by
    rw [UInt64.le_iff_toNat_le]
    omega
  simp only [requestPath, missed]
  cases calls.dbname with
  | false => simp [strncpy_failed, rest]
  | true => simp [strncpy_allocated, short]

/-- Without a slash the whole URI is the name. -/
theorem splits_missed_iff (finds : FindsSlash ngxStrnstr) (missed : ngxStrnstr m 1 [47] n = none)
    (long : 2 ≤ n.toNat) (calls : PathCalls) :
    (∃ names, requestPath ngxStrnstr calls m n = some names ∧ SplitsPath m n.toNat names) ↔
      calls.dbname = true ∧ Clean m 1 n.toNat := by
  have pred := toNat_pred (k := n) (by omega)
  have holds := holds_copyOf_iff m 1 pred (by omega : n.toNat - 1 < n.toNat)
  have whole : 1 + (n.toNat - 1) = n.toNat := by omega
  rw [whole] at holds
  rw [requestPath_missed missed long]
  constructor
  · rintro ⟨names, returned, splits⟩
    cases allocated : calls.dbname with
    | false => simp [allocated] at returned
    | true =>
      simp only [allocated, if_true, Option.some.injEq] at returned
      subst returned
      have alone : ∀ p, ¬NextSlash m n.toNat p := by
        intro p slash
        obtain ⟨d, named, -⟩ := (splits.document p slash).2
        cases named
      obtain ⟨b, named, held⟩ := (splits.database alone).1
      cases named
      exact ⟨rfl, holds.mp held⟩
  · rintro ⟨allocated, clean⟩
    simp only [allocated, if_true]
    refine ⟨_, rfl, ?_, ?_, ?_⟩
    · intro p slash
      exfalso
      apply not_slashAt_of_missed finds missed p (Nat.le_of_lt slash.inside)
      refine ⟨slash.behind, slash.slash, fun j start before => ⟨slash.first j start before, ?_⟩⟩
      intro zero
      have none := clean j p start before slash.inside zero
      rw [slash.slash] at none
      cases none
    · exact fun _ => ⟨⟨_, rfl, holds.mpr clean⟩, rfl⟩
    · intro c made
      obtain rfl := List.mem_singleton.mp made
      exact copy_inside (by omega) (by omega)

/-- What is left of the URI behind a slash. -/
theorem toNat_behind {p : Nat} (before : p < n.toNat) {len : UInt64} (length : len.toNat = p) :
    (n - len).toNat = n.toNat - p := by
  rw [UInt64.toNat_sub_of_le _ _ (by rw [UInt64.le_iff_toNat_le]; omega), length]

theorem toNat_neg {p : Nat} (pos : 1 ≤ p) (small : p < 2 ^ 64) :
    (0 - UInt64.ofNat p).toNat = 2 ^ 64 - p := by
  have value : (UInt64.ofNat p).toNat = p := by
    rw [UInt64.toNat_ofNat']
    exact Nat.mod_eq_of_lt small
  rw [UInt64.toNat_sub, value]
  simp only [UInt64.toNat_zero, Nat.add_zero]
  exact Nat.mod_eq_of_lt (by omega)

/-- What is read of the URI up to a slash has the slash in it, as long as the length is that of
the other direction. -/
theorem holds_backwards {p : Nat} (slash : SlashAt m p) (small : p < 2 ^ 64)
    (held : Holds ⟨0 - UInt64.ofNat p, copyOf m 1 (0 - UInt64.ofNat p - 1)⟩ m 1 (p - 1)) :
    p = 2 ^ 63 := by
  have behind := slash.behind
  have length := toNat_neg behind small
  have count := toNat_pred (k := 0 - UInt64.ofNat p) (by omega)
  have room : p - 1 < 2 ^ 64 - p := length ▸ held.room
  have last := held.terminated
  by_contra other
  have inside : p - 1 < (0 - UInt64.ofNat p - 1).toNat := by omega
  have read : untilNul m 1 (p - 1) = true := by
    rw [untilNul_iff]
    exact fun j before => (slash.first (1 + j) (by omega) (by omega)).2
  have here : 1 + (p - 1) = p := by omega
  simp only [copyOf, if_pos inside, if_pos read, here, slash.slash] at last
  cases last

/-- The name of the database is what was copied first. -/
theorem requestPath_dbname {p : Nat} (found : ngxStrnstr m 1 [47] n = some p) {calls : PathCalls}
    {names : PathNames} (returned : requestPath ngxStrnstr calls m n = some names) :
    strncpy m (ngxPcalloc calls.dbname (0 - UInt64.ofNat p)) 1 (0 - UInt64.ofNat p - 1) =
      some names.dbname := by
  simp only [requestPath, found] at returned
  split at returned
  · cases returned
  · rename_i dbname copied
    rw [copied]
    split at returned
    · obtain ⟨docname, -, rfl⟩ := Option.map_eq_some_iff.mp returned
      rfl
    · cases returned
      rfl

theorem SplitsPath.dbname {names : PathNames} {p : Nat} (splits : SplitsPath m n.toNat names)
    (slash : SlashAt m p) (inside : p ≤ n.toNat) : ∃ b ∈ names.dbname, Holds b m 1 (p - 1) := by
  rcases Nat.lt_or_eq_of_le inside with before | last
  · exact (splits.document p (slash.nextSlash before)).1
  · rw [last] at slash ⊢
    exact (splits.database slash.alone).1

/-- With a slash the length is its distance modulo 2^64, taken backwards: only one distance is
the same in both directions. -/
theorem splits_found_needs (finds : FindsSlash ngxStrnstr) {p : Nat}
    (found : ngxStrnstr m 1 [47] n = some p) {calls : PathCalls} {names : PathNames}
    (returned : requestPath ngxStrnstr calls m n = some names)
    (splits : SplitsPath m n.toNat names) : calls.dbname = true ∧ p = 2 ^ 63 := by
  obtain ⟨slash, inside⟩ := slashAt_of_found finds found
  have small : p < 2 ^ 64 := Nat.lt_of_le_of_lt inside n.toNat_lt
  have copied := requestPath_dbname found returned
  obtain ⟨b, named, held⟩ := splits.dbname slash inside
  rw [Option.mem_def.mp named] at copied
  cases allocated : calls.dbname with
  | false =>
    rw [allocated, strncpy_failed] at copied
    split at copied <;> cases copied
  | true =>
    rw [allocated, strncpy_allocated, Option.some.injEq, Option.some.injEq] at copied
    subst copied
    exact ⟨rfl, holds_backwards slash small held⟩

theorem requestPath_found {p : Nat} (found : ngxStrnstr m 1 [47] n = some p) {calls : PathCalls}
    (allocated : calls.dbname = true) {len : UInt64} (hlen : len = 0 - UInt64.ofNat p) :
    requestPath ngxStrnstr calls m n =
      if len ≤ n - 1 then
        (strncpy m (ngxPcalloc calls.docname (n - len)) (p + 1) (n - len - 1)).map fun docname =>
          ⟨some ⟨len, copyOf m 1 (len - 1)⟩, docname,
            [⟨1, len - 1, len⟩, ⟨p + 1, n - len - 1, n - len⟩]⟩
      else some ⟨some ⟨len, copyOf m 1 (len - 1)⟩, none, [⟨1, len - 1, len⟩]⟩ := by
  simp only [requestPath, found, allocated, strncpy_allocated, ← hlen]

/-- With the length it should have, the first name ends at the slash. -/
theorem holds_dbname {p : Nat} (slash : SlashAt m p) {len : UInt64} (length : len.toNat = p) :
    Holds ⟨len, copyOf m 1 (len - 1)⟩ m 1 (p - 1) := by
  have behind := slash.behind
  have count : (len - 1).toNat = p - 1 := by rw [toNat_pred (by omega), length]
  rw [holds_copyOf_iff m 1 count (by omega)]
  intro i j start before last zero
  exact absurd zero (slash.first i start (by omega)).2

/-- A slash behind the URI ends the one name there is. -/
theorem splits_at_end (slash : SlashAt m n.toNat) {len : UInt64} (length : len.toNat = n.toNat) :
    SplitsPath m n.toNat ⟨some ⟨len, copyOf m 1 (len - 1)⟩, none, [⟨1, len - 1, len⟩]⟩ := by
  have behind := slash.behind
  have count : (len - 1).toNat = n.toNat - 1 := by rw [toNat_pred (by omega), length]
  refine ⟨fun q other => absurd other (slash.alone q), ?_, ?_⟩
  · exact fun _ => ⟨⟨_, rfl, holds_dbname slash length⟩, rfl⟩
  · intro c made
    obtain rfl := List.mem_singleton.mp made
    exact copy_inside (by omega) (by omega)

/-- A slash in the URI asks for a second name. -/
theorem splits_inside_iff {p : Nat} (slash : SlashAt m p) (before : p < n.toNat) {len : UInt64}
    (length : len.toNat = p) (docname : Option PathBuffer) :
    SplitsPath m n.toNat ⟨some ⟨len, copyOf m 1 (len - 1)⟩, docname,
        [⟨1, len - 1, len⟩, ⟨p + 1, n - len - 1, n - len⟩]⟩ ↔
      ∃ d ∈ docname, Holds d m (p + 1) (n.toNat - p - 1) := by
  have behind := slash.behind
  have here := slash.nextSlash before
  constructor
  · exact fun splits => (splits.document p here).2
  · intro named
    have count : (len - 1).toNat = p - 1 := by rw [toNat_pred (by omega), length]
    have rest := toNat_behind before length
    have restCount : (n - len - 1).toNat = n.toNat - p - 1 := by
      rw [toNat_pred (by omega), rest]
    refine ⟨?_, fun alone => absurd here (alone p), ?_⟩
    · intro q other
      rw [slash.next other]
      exact ⟨⟨_, rfl, holds_dbname slash length⟩, named⟩
    · intro c made
      rcases List.mem_cons.mp made with rfl | made
      · exact copy_inside (by omega) (by omega)
      · obtain rfl := List.mem_singleton.mp made
        exact copy_inside (by omega) (by omega)

/-- The second name is there if it was allocated and copied whole. -/
theorem splits_document_iff {p : Nat} (slash : SlashAt m p) (before : p < n.toNat) {len : UInt64}
    (length : len.toNat = p) (allocated : Bool) :
    (∃ names, (strncpy m (ngxPcalloc allocated (n - len)) (p + 1) (n - len - 1)).map
        (fun docname => (⟨some ⟨len, copyOf m 1 (len - 1)⟩, docname,
          [⟨1, len - 1, len⟩, ⟨p + 1, n - len - 1, n - len⟩]⟩ : PathNames)) = some names ∧
        SplitsPath m n.toNat names) ↔
      allocated = true ∧ Clean m (p + 1) n.toNat := by
  have rest := toNat_behind before length
  have restCount : (n - len - 1).toNat = n.toNat - p - 1 := by
    rw [toNat_pred (by omega), rest]
  have whole : p + 1 + (n.toNat - p - 1) = n.toNat := by omega
  have second := holds_copyOf_iff m (p + 1) restCount
    (by omega : n.toNat - p - 1 < (n - len).toNat)
  rw [whole] at second
  have splits := splits_inside_iff slash before length
  cases allocated with
  | false =>
    simp only [strncpy_failed, Bool.false_eq_true, false_and, iff_false]
    rintro ⟨names, returned, cut⟩
    split at returned
    · obtain rfl := Option.some.inj returned
      obtain ⟨d, named, -⟩ := (splits none).mp cut
      cases named
    · cases returned
  | true =>
    simp only [strncpy_allocated, Option.map_some, Option.some.injEq, exists_eq_left', true_and,
      splits, Option.mem_some_iff]
    exact second

/-- At that one distance the URI is cut as it should be, if the second name can be copied. -/
theorem splits_half_iff (finds : FindsSlash ngxStrnstr) {p : Nat}
    (found : ngxStrnstr m 1 [47] n = some p) (half : p = 2 ^ 63) {calls : PathCalls}
    (allocated : calls.dbname = true) :
    (∃ names, requestPath ngxStrnstr calls m n = some names ∧ SplitsPath m n.toNat names) ↔
      (p < n.toNat → calls.docname = true ∧ Clean m (p + 1) n.toNat) := by
  obtain ⟨slash, inside⟩ := slashAt_of_found finds found
  obtain ⟨len, hlen⟩ : ∃ len : UInt64, len = 0 - UInt64.ofNat p := ⟨_, rfl⟩
  have length : len.toNat = p := by
    rw [hlen, toNat_neg slash.behind (by omega)]
    omega
  have behind := slash.behind
  have pred := toNat_pred (k := n) (by omega)
  rw [requestPath_found found allocated hlen]
  rcases Nat.lt_or_eq_of_le inside with before | last
  · have cut : len ≤ n - 1 := by
      rw [UInt64.le_iff_toNat_le]
      omega
    simp only [if_pos cut, before, forall_const]
    exact splits_document_iff slash before length calls.docname
  · -- The slash stands behind the URI.
    have whole : ¬len ≤ n - 1 := by
      rw [UInt64.le_iff_toNat_le]
      omega
    simp only [if_neg whole, Option.some.injEq, exists_eq_left']
    constructor
    · intro _ before
      omega
    · intro _
      exact splits_at_end (last ▸ slash) (length.trans last)

/-- A URI is cut right exactly if nothing like a second slash is found, neither in it nor in the
byte behind it, and no terminator stands before another byte. On paper also if that slash
stands at the distance that is its own negative. -/
theorem requestPath_splits_iff (finds : FindsSlash ngxStrnstr) (long : 2 ≤ n.toNat)
    (calls : PathCalls) :
    (∃ names, requestPath ngxStrnstr calls m n = some names ∧ SplitsPath m n.toNat names) ↔
      calls.dbname = true ∧
        (((∀ p, p ≤ n.toNat → ¬SlashAt m p) ∧ Clean m 1 n.toNat) ∨
          (2 ^ 63 ≤ n.toNat ∧ SlashAt m (2 ^ 63) ∧
            (2 ^ 63 < n.toNat → calls.docname = true ∧ Clean m (2 ^ 63 + 1) n.toNat))) := by
  cases found : ngxStrnstr m 1 [47] n with
  | none =>
    have missed := not_slashAt_of_missed finds found
    rw [splits_missed_iff finds found long]
    constructor
    · rintro ⟨allocated, clean⟩
      exact ⟨allocated, Or.inl ⟨missed, clean⟩⟩
    · rintro ⟨allocated, ⟨-, clean⟩ | ⟨inside, slash, -⟩⟩
      · exact ⟨allocated, clean⟩
      · exact absurd slash (missed _ inside)
  | some p =>
    obtain ⟨slash, inside⟩ := slashAt_of_found finds found
    constructor
    · rintro ⟨names, returned, splits⟩
      obtain ⟨allocated, half⟩ := splits_found_needs finds found returned splits
      have document := (splits_half_iff finds found half allocated).mp ⟨names, returned, splits⟩
      rw [half] at slash inside document
      exact ⟨allocated, Or.inr ⟨inside, slash, document⟩⟩
    · rintro ⟨allocated, ⟨missed, -⟩ | ⟨-, other, document⟩⟩
      · exact absurd slash (missed p inside)
      · have half := slash.unique other
        rw [← half] at document
        exact (splits_half_iff finds found half allocated).mpr document

end Cases

section Samples

/-- The loop of `ngx_strnstr` for a needle of one character. -/
private def scanFor (m : Memory) (c : UInt8) : Nat → Nat → Option Nat
  | _, 0 => none
  | off, len + 1 =>
    if m off = 0 then none else if m off = c then some off else scanFor m c (off + 1) len

private theorem scanFor_iff (m : Memory) (off len i : Nat) :
    scanFor m 47 off len = some i ↔
      off ≤ i ∧ i < off + len ∧ m i = 47 ∧ ∀ j, off ≤ j → j < i → m j ≠ 47 ∧ m j ≠ 0 := by
  induction len generalizing off with
  | zero =>
    simp only [scanFor, reduceCtorEq, false_iff]
    omega
  | succ len ih =>
    rw [scanFor]
    by_cases zero : m off = 0
    · simp only [if_pos zero, reduceCtorEq, false_iff]
      rintro ⟨behind, -, slash, first⟩
      rcases Nat.eq_or_lt_of_le behind with same | before
      · rw [← same, zero] at slash
        cases slash
      · exact (first off (Nat.le_refl off) before).2 zero
    · by_cases slash : m off = 47
      · simp only [if_neg zero, if_pos slash, Option.some.injEq]
        constructor
        · rintro rfl
          exact ⟨Nat.le_refl _, by omega, slash, by omega⟩
        · rintro ⟨behind, -, -, first⟩
          rcases Nat.eq_or_lt_of_le behind with same | before
          · exact same
          · exact absurd slash (first off (Nat.le_refl off) before).1
      · rw [if_neg zero, if_neg slash, ih]
        constructor
        · rintro ⟨behind, inside, here, first⟩
          refine ⟨by omega, by omega, here, fun j start before => ?_⟩
          rcases Nat.eq_or_lt_of_le start with rfl | later
          · exact ⟨slash, zero⟩
          · exact first j later before
        · rintro ⟨behind, inside, here, first⟩
          have other : off ≠ i := by
            rintro rfl
            exact slash here
          exact ⟨by omega, by omega, here, fun j start before => first j (by omega) before⟩

private def sampleStrnstr : Strnstr := fun m off needle len =>
  scanFor m (needle.headD 0) off len.toNat

private theorem sample_finds : FindsSlash sampleStrnstr :=
  fun m off len i => scanFor_iff m off len.toNat i

/-- The URI `/a/b`. -/
private def dbAndDoc : Memory := load [47, 97, 47, 98] fun _ => 32

theorem document_path_not_split :
    FindsSlash sampleStrnstr ∧ ∀ calls, ¬∃ names,
      requestPath sampleStrnstr calls dbAndDoc 4 = some names ∧ SplitsPath dbAndDoc 4 names := by
  refine ⟨sample_finds, ?_⟩
  rintro calls ⟨names, returned, splits⟩
  have found : sampleStrnstr dbAndDoc 1 [47] 4 = some 2 := by decide
  exact absurd (splits_found_needs sample_finds found returned splits).2 (by decide)

/-- The URI `/a`, with a blank behind it. -/
private def dbOnly : Memory := load [47, 97] fun _ => 32

theorem database_path_split :
    ∃ names, requestPath sampleStrnstr {} dbOnly 2 = some names ∧ SplitsPath dbOnly 2 names := by
  refine (requestPath_splits_iff sample_finds (by decide) {}).mpr ⟨rfl, Or.inl ⟨?_, ?_⟩⟩
  · intro p inside slash
    have none : ∀ p, p ≤ 2 → 1 ≤ p → dbOnly p ≠ 47 := by decide
    exact none p inside slash.behind slash.slash
  · intro i j start before last
    exact absurd before (by have : (2 : UInt64).toNat = 2 := rfl; omega)

end Samples

end RequestPath
