import Lounge.Utils.Buffer
import Lounge.Lib.Runs

/-!
# Runs over a byte buffer

What a client of `la_buffer` that only appends, overwrites and cuts sees: a list of bytes. It
is what the calls make of a list as long as `vsnprintf` formats; its failure is not noticed.
-/

namespace BufferRuns
open FlatMemory Buffer

/-- The calls, with their arguments. -/
inductive BufferCall where
  | ensureCapacity (capacity : UInt64)
  | append (data : Memory) (length : UInt64)
  | appendf (text : Formatted)
  | overwrite (index : UInt64) (data : Memory) (length : UInt64)
  | truncate (newsize : UInt64)
  | clear
  | compact

/-- A call is made. -/
def callBuffer (c : Realloc) (b : LaBuffer) : BufferCall → BufferReturn
  | .ensureCapacity capacity => laBufferEnsureCapacity c b capacity
  | .append data length => laBufferAppend c b data length
  | .appendf text => laBufferVappendf c b text
  | .overwrite index data length => laBufferOverwrite c b index data length
  | .truncate newsize => laBufferTruncate b newsize
  | .clear => laBufferClear c b
  | .compact => laBufferCompact c b

/-- What a call is to do to the contents. -/
def BufferCall.onList (l : List UInt8) : BufferCall → List UInt8
  | .ensureCapacity _ => l
  | .append data length => l ++ read data 0 length.toNat
  | .appendf text => l ++ text.getD []
  | .overwrite index data length =>
    l.take index.toNat ++ read data 0 length.toNat ++ l.drop (index.toNat + length.toNat)
  | .truncate newsize => l.take newsize.toNat
  | .clear => []
  | .compact => l

/-- No sum of sizes of the call exceeds a `size_t`. -/
def SumsFit (b : LaBuffer) : BufferCall → Prop
  | .ensureCapacity capacity => GrowthFits b capacity.toNat
  | .append _ length => GrowthFits b (b.size.toNat + length.toNat)
  | .appendf text => ∀ bs ∈ text, GrowthFits b (b.size.toNat + bs.length + 1)
  | .overwrite index _ length => GrowthFits b (index.toNat + length.toNat)
  | _ => True

/-- The call leaves no gap behind the contents. -/
def StartsInside (b : LaBuffer) : BufferCall → Prop
  | .overwrite index _ _ => index ≤ b.size
  | _ => True

/-- The calls that the contents are told for. -/
def Lawful (b : LaBuffer) (call : BufferCall) : Prop := SumsFit b call ∧ StartsInside b call

/-- `vsnprintf` does not fail: there is a text, and an `int` can tell its length. -/
def Formats : BufferCall → Prop
  | .appendf text => ∃ bs, text = some bs ∧ bs.length < 2 ^ 31
  | _ => True

/-- How a buffer is made. The bytes that are wrapped are there. -/
inductive Made : BufferReturn → Prop
  | new {header block : Bool} {heap : Memory} {capacity : UInt64} {r : BufferReturn}
      (made : laBufferNew header block heap capacity = some r) : Made r
  | wrap {header : Bool} {ptr : Memory} {alloc : Nat} {capacity size : UInt64}
      {r : BufferReturn} (available : capacity.toNat ≤ alloc) (valid : size ≤ capacity)
      (made : laBufferWrap header ptr alloc capacity size = some r) : Made r

/-- A call, with what `realloc` answers, as a step: what it returns, and the bytes it touched. -/
def bufferStep (b : LaBuffer) (i : Realloc × BufferCall) : BufferReturn × LaBuffer :=
  (callBuffer i.1 b i.2, (callBuffer i.1 b i.2).buffer)

abbrev BufferEvent := Runs.Event LaBuffer (Realloc × BufferCall) BufferReturn

/-- What is to hold after a call. -/
structure Answered (b : LaBuffer) (call : BufferCall) (r : BufferReturn) : Prop where
  sound : Sound r.buffer
  inside : TouchesInside r
  answer : r.ret = 0 ∧ r.buffer.contents = call.onList b.contents ∨
    r.ret = -1 ∧ r.buffer.contents = b.contents ∧ r.buffer.size = b.size

/-- The list a client keeps: each call that returns 0 is applied to it. -/
def clientList (l : List UInt8) (e : BufferEvent) : List UInt8 :=
  if e.output.ret = 0 then e.input.2.onList l else l

theorem clientList_of_zero (l : List UInt8) (e : BufferEvent) (done : e.output.ret = 0) :
    clientList l e = e.input.2.onList l := if_pos done

theorem clientList_of_failed (l : List UInt8) (e : BufferEvent) (failed : e.output.ret = -1) :
    clientList l e = l :=
  if_neg (by rw [failed]; decide)

section Calls
variable {b : LaBuffer} {c : Realloc}

theorem touchesInside_nil (ret : Int) (b : LaBuffer) : TouchesInside ⟨ret, b, []⟩ :=
  fun _ mem => absurd mem List.not_mem_nil

theorem touchesInside_cons {ret : Int} {b : LaBuffer} {off len : Nat} {rest : List (Nat × Nat)}
    (first : off + len ≤ b.alloc) (others : TouchesInside ⟨ret, b, rest⟩) :
    TouchesInside ⟨ret, b, (off, len) :: rest⟩ := by
  intro t mem i start stop
  rcases List.mem_cons.mp mem with rfl | mem
  · exact Nat.lt_of_lt_of_le stop first
  · exact others t mem i start stop

/-- A call that changes nothing. -/
theorem answered_failed (call : BufferCall) (sound : Sound b) : Answered b call ⟨-1, b, []⟩ :=
  ⟨sound, touchesInside_nil _ _, Or.inr ⟨rfl, rfl, rfl⟩⟩

theorem answered_ensureCapacity {capacity : UInt64} (sound : Sound b)
    (fits : GrowthFits b capacity.toNat) :
    Answered b (.ensureCapacity capacity) (laBufferEnsureCapacity c b capacity) := by
  rcases laBufferEnsureCapacity_cases c sound fits with failed | ⟨b', returned, ensured⟩
  · rw [failed]
    exact answered_failed _ sound
  · rw [returned]
    exact ⟨ensured.sound, touchesInside_nil _ _, Or.inl ⟨rfl, ensured.contents sound⟩⟩

theorem answered_append {data : Memory} {length : UInt64} (sound : Sound b)
    (fits : GrowthFits b (b.size.toNat + length.toNat)) :
    Answered b (.append data length) (laBufferAppend c b data length) := by
  have sum := toNat_add_of_fits fits.1
  rw [← sum] at fits
  rw [laBufferAppend]
  rcases laBufferEnsureCapacity_cases c sound fits with failed | ⟨b', returned, ensured⟩
  · rw [failed]
    exact answered_failed _ sound
  · have room := ensured.room
    have behind := ensured.sound.capacity
    rw [returned]
    simp only [ne_eq, not_true_eq_false, if_false, ensured.size]
    refine ⟨⟨room, behind⟩, ?_, Or.inl ⟨rfl, ?_⟩⟩
    · refine touchesInside_cons ?_ (touchesInside_nil _ _)
      show b.size.toNat + length.toNat ≤ b'.alloc
      omega
    · have contents := ensured.contents sound
      rw [LaBuffer.contents, ensured.size] at contents
      simp only [LaBuffer.contents, BufferCall.onList, sum]
      have appended := read_store_end b'.ptr b.size.toNat (read data 0 length.toNat)
      rwa [length_read, contents] at appended

/-- An overwrite fails, or the buffer ends where it ended before or behind the bytes. -/
theorem laBufferOverwrite_cases (c : Realloc) (sound : Sound b) {index length : UInt64}
    (data : Memory) (fits : GrowthFits b (index.toNat + length.toNat)) :
    laBufferOverwrite c b index data length = ⟨-1, b, []⟩ ∨
      ∃ b' size, laBufferOverwrite c b index data length =
          ⟨0, { b' with ptr := store b'.ptr index.toNat (read data 0 length.toNat), size := size },
            [(index.toNat, length.toNat)]⟩ ∧
        Ensured b (index.toNat + length.toNat) b' ∧
          size.toNat = max b.size.toNat (index.toNat + length.toNat) := by
  have sum := toNat_add_of_fits fits.1
  rw [← sum] at fits ⊢
  rw [laBufferOverwrite]
  rcases laBufferEnsureCapacity_cases c sound fits with failed | ⟨b', returned, ensured⟩
  · rw [failed]
    exact Or.inl rfl
  · rw [returned]
    refine Or.inr ⟨b', _, rfl, ensured, ?_⟩
    simp only [ensured.size]
    split <;> rename_i grows <;> rw [UInt64.lt_iff_toNat_lt] at grows <;> omega

/-- An overwrite is safe wherever it starts. -/
theorem safe_overwrite {index length : UInt64} (data : Memory) (sound : Sound b)
    (fits : GrowthFits b (index.toNat + length.toNat)) :
    Sound (laBufferOverwrite c b index data length).buffer ∧
      TouchesInside (laBufferOverwrite c b index data length) := by
  rcases laBufferOverwrite_cases c sound data fits with failed | ⟨b', size, returned, ensured, ends⟩
  · rw [failed]
    exact ⟨sound, touchesInside_nil _ _⟩
  · have room := ensured.room
    have behind := ensured.sound.capacity
    have old := ensured.sound.size
    rw [ensured.size] at old
    rw [returned]
    refine ⟨⟨?_, behind⟩, ?_⟩
    · show size.toNat ≤ b'.capacity.toNat
      omega
    · exact touchesInside_cons (Nat.le_trans room behind) (touchesInside_nil _ _)

theorem answered_overwrite {index length : UInt64} {data : Memory} (sound : Sound b)
    (fits : GrowthFits b (index.toNat + length.toNat)) (start : index ≤ b.size) :
    Answered b (.overwrite index data length) (laBufferOverwrite c b index data length) := by
  have safe := safe_overwrite (c := c) data sound fits
  rw [UInt64.le_iff_toNat_le] at start
  rcases laBufferOverwrite_cases c sound data fits with failed | ⟨b', size, returned, ensured, ends⟩
  · rw [failed]
    exact answered_failed _ sound
  · rw [returned] at safe ⊢
    refine ⟨safe.1, safe.2, Or.inl ⟨rfl, ?_⟩⟩
    have contents := ensured.contents sound
    rw [LaBuffer.contents, ensured.size] at contents
    simp only [LaBuffer.contents, BufferCall.onList, ends]
    have spliced := read_store_splice b'.ptr (read data 0 length.toNat) start
    rwa [length_read, contents] at spliced

theorem vsnprintf_of_lt {bs : List UInt8} (short : bs.length < 2 ^ 31) (m : Memory) (off : Nat)
    {n : Nat} (room : bs.length < n) :
    vsnprintf m off n (some bs) = ((bs.length : Int), store m off (bs ++ [0])) := by
  simp only [vsnprintf]
  rw [if_pos short, if_neg (by omega), List.take_of_length_le (by omega)]

/-- The sizes behind a text that was printed, without and with its terminator. -/
theorem toNat_printed {size : UInt64} {length : Nat} (fits : size.toNat + length + 1 < 2 ^ 64) :
    (size + UInt64.ofInt (length : Int)).toNat = size.toNat + length ∧
      (size + UInt64.ofInt (length : Int) + 1).toNat = size.toNat + length + 1 := by
  have added : (UInt64.ofInt (length : Int)).toNat = length := by
    rw [UInt64.ofInt, UInt64.toNat_ofNat']
    omega
  have sum : (size + UInt64.ofInt (length : Int)).toNat = size.toNat + length := by
    rw [toNat_add_of_fits (by omega), added]
  refine ⟨sum, ?_⟩
  rw [toNat_add_of_fits (by rw [sum]; exact fits), sum]
  rfl

theorem answered_appendf {text : Formatted} (sound : Sound b)
    (sums : SumsFit b (.appendf text)) (formats : Formats (.appendf text)) :
    Answered b (.appendf text) (laBufferVappendf c b text) := by
  obtain ⟨bs, rfl, short⟩ := formats
  have fits : GrowthFits b (b.size.toNat + bs.length + 1) := sums bs rfl
  obtain ⟨sum, terminated⟩ := toNat_printed fits.1
  have needed : (vsnprintf b.ptr 0 0 (some bs)).1 = bs.length := if_pos short
  rw [← terminated] at fits
  rw [laBufferVappendf, needed]
  rcases laBufferEnsureCapacity_cases c sound fits with failed | ⟨b', returned, ensured⟩
  · rw [failed]
    exact answered_failed _ sound
  · have room := ensured.room
    have behind := ensured.sound.capacity
    rw [terminated] at room
    have remaining : (b'.capacity - b.size).toNat = b'.capacity.toNat - b.size.toNat :=
      UInt64.toNat_sub_of_le _ _ (UInt64.le_iff_toNat_le.mpr (by omega))
    rw [returned]
    simp only [ne_eq, not_true_eq_false, if_false, ensured.size, remaining]
    rw [vsnprintf_of_lt short _ _ (by omega)]
    refine ⟨⟨?_, behind⟩, ?_, Or.inl ⟨rfl, ?_⟩⟩
    · simp only [sum]
      omega
    · -- the terminator is the last byte written, one behind the new size
      have writes : vsnprintfWrites (b'.capacity.toNat - b.size.toNat) (some bs) =
          bs.length + 1 := by
        simp only [vsnprintfWrites]
        rw [if_neg (by omega), Nat.min_eq_right (by omega)]
      rw [writes]
      refine touchesInside_cons ?_ (touchesInside_cons ?_ (touchesInside_nil _ _))
      · show b.size.toNat + 1 ≤ b'.alloc
        omega
      · show b.size.toNat + (bs.length + 1) ≤ b'.alloc
        omega
    · have contents := ensured.contents sound
      rw [LaBuffer.contents, ensured.size] at contents
      simp only [LaBuffer.contents, BufferCall.onList, sum, Option.getD_some]
      show _ = b.contents ++ bs
      rw [read_store_end_of_append, read_store_outside (by omega), contents]

theorem answered_truncate {newsize : UInt64} (sound : Sound b) :
    Answered b (.truncate newsize) (laBufferTruncate b newsize) := by
  have inside := sound.size
  rw [laBufferTruncate]
  split <;> rename_i larger
  · exact answered_failed _ sound
  · rw [UInt64.lt_iff_toNat_lt] at larger
    have shorter : newsize.toNat ≤ b.size.toNat := by omega
    refine ⟨⟨?_, sound.capacity⟩, touchesInside_nil _ _, Or.inl ⟨rfl, ?_⟩⟩
    · exact Nat.le_trans shorter inside
    · exact (take_read b.ptr 0 shorter).symm

/-- Compacting returns with the same contents, whether or not there was memory. -/
theorem laBufferCompact_cases (c : Realloc) (sound : Sound b) :
    ∃ ret b', laBufferCompact c b = ⟨ret, b', []⟩ ∧ (ret = 0 ∨ ret = -1) ∧ Sound b' ∧
      b'.contents = b.contents ∧ b'.size = b.size := by
  have inside := sound.size
  have behind := sound.capacity
  rw [laBufferCompact]
  cases b.ptrOwned with
  | false => exact ⟨0, b, by simp, Or.inl rfl, sound, rfl, rfl⟩
  | true =>
    by_cases loose : b.size < b.capacity
    · cases c.allocated with
      | false => exact ⟨-1, b, by simp [loose], Or.inr rfl, sound, rfl, rfl⟩
      | true =>
        have enough : b.size.toNat ≤ (if b.size = 0 then (1024 : UInt64) else b.size).toNat := by
          split <;> rename_i empty
          · simp [empty]
          · exact le_refl _
        refine ⟨0, { b.realloc c.heap (if b.size = 0 then 1024 else b.size) with
          capacity := b.size }, by simp [loose], Or.inl rfl, ⟨le_refl _, enough⟩, ?_, rfl⟩
        have kept : 0 + b.size.toNat ≤
            min b.alloc (if b.size = 0 then (1024 : UInt64) else b.size).toNat := by omega
        exact read_regrow kept
    · exact ⟨0, b, by simp [loose], Or.inl rfl, sound, rfl, rfl⟩

theorem answered_compact (sound : Sound b) : Answered b .compact (laBufferCompact c b) := by
  obtain ⟨ret, b', returned, answer, kept, contents, size⟩ := laBufferCompact_cases c sound
  rw [returned]
  refine ⟨kept, touchesInside_nil _ _, ?_⟩
  rcases answer with rfl | rfl
  · exact Or.inl ⟨rfl, contents⟩
  · exact Or.inr ⟨rfl, contents, size⟩

theorem answered_clear (sound : Sound b) : Answered b .clear (laBufferClear c b) := by
  have cut : laBufferTruncate b 0 = ⟨0, { b with size := 0 }, []⟩ := by
    rw [laBufferTruncate, if_neg (by rw [UInt64.lt_iff_toNat_lt]; exact Nat.not_lt_zero _)]
  have empty : Sound { b with size := 0 } := ⟨Nat.zero_le _, sound.capacity⟩
  obtain ⟨ret, b', returned, answer, kept, contents, size⟩ := laBufferCompact_cases c empty
  rw [laBufferClear, cut, returned]
  exact ⟨kept, touchesInside_nil _ _, Or.inl ⟨rfl, contents⟩⟩

/-- Every call is answered as on a list. -/
theorem answered (c : Realloc) (call : BufferCall) (sound : Sound b) (lawful : Lawful b call)
    (formats : Formats call) : Answered b call (callBuffer c b call) := by
  cases call with
  | ensureCapacity capacity => exact answered_ensureCapacity sound lawful.1
  | append data length => exact answered_append sound lawful.1
  | appendf text => exact answered_appendf sound lawful.1 formats
  | overwrite index data length => exact answered_overwrite sound lawful.1 lawful.2
  | truncate newsize => exact answered_truncate sound
  | clear => exact answered_clear sound
  | compact => exact answered_compact sound

/-- Every call is safe, also one that leaves a gap. -/
theorem safe_call (c : Realloc) (call : BufferCall) (sound : Sound b) (sums : SumsFit b call)
    (formats : Formats call) :
    Sound (callBuffer c b call).buffer ∧ TouchesInside (callBuffer c b call) := by
  cases call with
  | overwrite index data length => exact safe_overwrite data sound sums
  | _ =>
    have here := answered c _ sound ⟨sums, trivial⟩ formats
    exact ⟨here.sound, here.inside⟩

end Calls

/-- A buffer that was just made. -/
theorem Made.sound {r : BufferReturn} (made : Made r) : Sound r.buffer ∧ TouchesInside r := by
  cases made with
  | @new header block heap capacity r made =>
    cases header with
    | false => simp [laBufferNew] at made
    | true =>
      cases block with
      | false => simp [laBufferNew] at made
      | true =>
        simp only [laBufferNew, Bool.not_true, Bool.false_eq_true, if_false,
          Option.some.injEq] at made
        subst made
        refine ⟨⟨Nat.zero_le _, le_refl _⟩, touchesInside_cons ?_ (touchesInside_nil _ _)⟩
        exact le_of_eq (Nat.zero_add _)
  | @wrap header ptr alloc capacity size r available valid made =>
    cases header with
    | false => simp [laBufferWrap] at made
    | true =>
      simp only [laBufferWrap, Bool.not_true, Bool.false_eq_true, if_false,
        Option.some.injEq] at made
      subst made
      exact ⟨⟨UInt64.le_iff_toNat_le.mp valid, available⟩, touchesInside_nil _ _⟩

/-- In a run from a new or a wrapped buffer in which `vsnprintf` never fails, every call leaves
the buffer sound, touches its block only, and does to the contents what it does to a list, or
nothing when it returns -1. -/
theorem buffer_refines_list {r : BufferReturn} (made : Made r)
    (calls : List (Realloc × BufferCall))
    (fair : ∀ e ∈ Runs.events bufferStep r.buffer calls,
      Lawful e.before e.input.2 ∧ Formats e.input.2) :
    (Sound r.buffer ∧ TouchesInside r) ∧
      (∀ e ∈ Runs.events bufferStep r.buffer calls, Answered e.before e.input.2 e.output) ∧
      (Runs.final bufferStep r.buffer calls).contents =
        Runs.replay clientList r.buffer.contents (Runs.events bufferStep r.buffer calls) := by
  have start := made.sound
  have step : ∀ b i, Sound b → Lawful b i.2 ∧ Formats i.2 →
      Answered b i.2 (bufferStep b i).1 := fun b i sound fair =>
    answered i.1 i.2 sound fair.1 fair.2
  have always := Runs.preserved Sound
    (fun b i sound fair => (step b i sound fair).sound) start.1 fair
  have client : ∀ b l i, Sound b ∧ b.contents = l → Lawful b i.2 ∧ Formats i.2 →
      Sound (bufferStep b i).2 ∧
        (bufferStep b i).2.contents = clientList l (Runs.event bufferStep b i) := by
    rintro b l i ⟨sound, rfl⟩ fair
    have here := step b i sound fair
    refine ⟨here.sound, ?_⟩
    rcases here.answer with ⟨returned, contents⟩ | ⟨returned, contents, -⟩
    · exact contents.trans (clientList_of_zero b.contents (Runs.event bufferStep b i) returned).symm
    · exact contents.trans
        (clientList_of_failed b.contents (Runs.event bufferStep b i) returned).symm
  refine ⟨start, fun e mem => ?_, ?_⟩
  · have here := step e.before e.input (always.1 e mem).1 (fair e mem)
    rwa [Runs.event_of_mem mem]
  · exact (Runs.simulated (fun b l => Sound b ∧ b.contents = l) client ⟨start.1, rfl⟩ fair).2

/-- A new buffer of the least size. -/
def freshBuffer : LaBuffer := ⟨regrow (fun _ => 0xaa) 1024 fun _ => 0, 1024, 0, 1024, true⟩

theorem made_freshBuffer : Made ⟨0, freshBuffer, [(0, 1024)]⟩ :=
  @Made.new true true (fun _ => 0) 16 _ rfl

/-- A buffer grows, and gets a byte and a text. -/
theorem printed_behind_byte :
    (Runs.final bufferStep freshBuffer
      [(⟨true, fun _ => 0⟩, .ensureCapacity 2000), (⟨false, fun _ => 0⟩, .append (fun _ => 97) 1),
        (⟨false, fun _ => 0⟩, .appendf (some [98]))]).contents = [97, 98] := by
  refine (buffer_refines_list made_freshBuffer _ ?_).2.2
  intro e mem
  simp only [Runs.events, List.mem_cons, List.not_mem_nil, or_false] at mem
  rcases mem with rfl | rfl | rfl
  · exact ⟨⟨⟨by decide, fun _ _ => by decide⟩, trivial⟩, trivial⟩
  · exact ⟨⟨⟨by decide, fun _ _ => by decide⟩, trivial⟩, trivial⟩
  · refine ⟨⟨?_, trivial⟩, [98], rfl, by decide⟩
    intro bs here
    obtain rfl := Option.some.inj here
    exact ⟨by decide, fun _ _ => by decide⟩

/-- A text of as many characters as an `int` cannot count: the call returns 0, and the size of the
empty buffer is the largest there is. -/
theorem long_text_unsound :
    Made ⟨0, freshBuffer, [(0, 1024)]⟩ ∧
      Lawful freshBuffer (.appendf (some (List.replicate (2 ^ 31) 97))) ∧
      ¬Answered freshBuffer (.appendf (some (List.replicate (2 ^ 31) 97)))
        (laBufferVappendf ⟨true, fun _ => 0⟩ freshBuffer
          (some (List.replicate (2 ^ 31) 97))) := by
  have long : ¬(List.replicate (2 ^ 31) (97 : UInt8)).length < 2 ^ 31 := by
    rw [List.length_replicate]
    exact Nat.lt_irrefl _
  refine ⟨made_freshBuffer, ⟨?_, trivial⟩, ?_⟩
  · intro bs here
    obtain rfl := Option.some.inj here
    rw [List.length_replicate]
    exact ⟨by decide, fun _ _ => by decide⟩
  · intro answered
    have size := answered.sound.size
    simp only [laBufferVappendf, vsnprintf, if_neg long] at size
    exact absurd size (by decide)

end BufferRuns
