import Lounge.Lib.SharedBuffer
import Lounge.Pull.PullTurns

/-!
# Failed transfers

All transfers of a run go through one buffer. It is cleared when a response is parsed, and
not when a transfer fails.
-/

namespace PullIsolation
open ObjectStore CodecValue CouchRevgen LoungeApi BdbDriver Process PullModel PullTurns
open Runs SharedBuffer

section Turns
variable (host : LaHost) (urlbase : CString)

/-- The transfer of a turn. -/
def fetchOf (e : Turn) : Option Fetch :=
  e.before.bind fun l => fetchMade host urlbase e.input l.store

/-- The response that a turn parses: what the buffer holds after a successful transfer. -/
def parsed (e : Turn) : Option (List UInt8) :=
  e.before.bind fun l =>
    (fetchMade host urlbase e.input l.store).bind fun f =>
      if f.transfer.ok then some (l.buffer ++ f.transfer.delivered) else none

/-- The turn parses a response. -/
def Parses (e : Turn) : Prop := ∃ f, fetchOf host urlbase e = some f ∧ f.transfer.ok = true

/-- The transfer failed. -/
def FetchFailed (e : Turn) : Prop := ∃ f, fetchOf host urlbase e = some f ∧ f.transfer.ok = false

/-- The transfer failed after it delivered something. -/
def LeavesBytes (e : Turn) : Prop :=
  ∃ f, fetchOf host urlbase e = some f ∧ f.transfer.ok = false ∧ f.transfer.delivered ≠ []

/-- What the turn parses is what its own transfer delivered. -/
def ParsesOwn (e : Turn) : Prop :=
  ∀ bytes ∈ parsed host urlbase e, ∀ f ∈ fetchOf host urlbase e, bytes = f.transfer.delivered

/-- No response is parsed behind a transfer that failed halfway. -/
def NoLeftovers (es : List Turn) : Prop :=
  es.Pairwise fun e e' => LeavesBytes host urlbase e → ¬Parses host urlbase e'

end Turns

/-- Every response is parsed by itself, and without a change whose transfer failed the other
changes have the same outcomes and leave the same database. -/
structure Isolated (host : LaHost) (resolver : Resolver) (json : JsonLib) (env : RunEnv)
    (p : Puller) (s : BdbStore) : Prop where
  own : ∀ e ∈ turns host resolver json env p s, ParsesOwn host p.urlbase e
  others : ∀ k, (∃ e, (turns host resolver json env p s)[k]? = some e ∧
      FetchFailed host p.urlbase e) →
    let step := turnStep host resolver json p.urlbase
    let start : Option LoopState := some ⟨[], s⟩
    let changes := loopEntries json env p
    outputs step start (changes.eraseIdx k) = (outputs step start changes).eraseIdx k ∧
      (final step start (changes.eraseIdx k)).map LoopState.store =
        (final step start changes).map LoopState.store

section Steps
variable {host : LaHost} {resolver : Resolver} {json : JsonLib} {urlbase : CString}

/-- A turn without a response does the same whatever the buffer holds. -/
theorem turnStep_alike {a b : Option LoopState} (i : FeedEntry)
    (same : a.map LoopState.store = b.map LoopState.store)
    (silent : ¬Parses host urlbase (event (turnStep host resolver json urlbase) a i)) :
    (turnStep host resolver json urlbase a i).1 = (turnStep host resolver json urlbase b i).1 ∧
      (turnStep host resolver json urlbase a i).2.map LoopState.store =
        (turnStep host resolver json urlbase b i).2.map LoopState.store := by
  cases a with
  | none =>
    obtain rfl : b = none := Option.map_eq_none_iff.mp same.symm
    exact ⟨rfl, rfl⟩
  | some l =>
    obtain ⟨l', rfl, store⟩ := Option.map_eq_some_iff.mp same.symm
    obtain ⟨buffer, s⟩ := l
    obtain ⟨buffer', s'⟩ := l'
    obtain rfl : s' = s := store
    cases made : fetchMade host urlbase i s' with
    | none =>
      obtain ⟨answer, ends⟩ := turnStep_unfetched resolver json made
      rw [ends buffer, ends buffer']
      cases answer <;> exact ⟨rfl, rfl⟩
    | some f =>
      cases ok : f.transfer.ok with
      | false =>
        rw [turnStep_failed resolver json made ok, turnStep_failed resolver json made ok]
        exact ⟨rfl, rfl⟩
      | true => exact absurd ⟨f, made, ok⟩ silent

/-- What the buffer holds; it is gone with a crash. -/
def bufferOf : Option LoopState → List UInt8
  | none => []
  | some l => l.buffer

/-- The turns with a transfer, as deliveries to the buffer. -/
def delivery (host : LaHost) (urlbase : CString) (e : Turn) : Option (Delivery UInt8) :=
  (fetchOf host urlbase e).map fun f => (f.transfer.delivered, f.transfer.ok)

/-- A response that is parsed, next to what its own transfer delivered. -/
def parsedOver (host : LaHost) (urlbase : CString) (e : Turn) : Option (List UInt8 × List UInt8) :=
  (parsed host urlbase e).bind fun bytes =>
    (fetchOf host urlbase e).map fun f => (bytes, f.transfer.delivered)

/-- Behind a crash there are no transfers. -/
theorem delivery_crashed (is : List FeedEntry) :
    (events (turnStep host resolver json urlbase) none is).filterMap (delivery host urlbase) =
      [] := by
  rw [List.filterMap_eq_nil_iff]
  intro e he
  rw [delivery, fetchOf, events_crashed is e he, Option.bind_none, Option.map_none]

/-- The loop takes from the buffer what its transfers do. -/
theorem parsedOver_taken (is : List FeedEntry) (st : Option LoopState) :
    let es := events (turnStep host resolver json urlbase) st is
    es.filterMap (parsedOver host urlbase) =
      taken (bufferOf st) (es.filterMap (delivery host urlbase)) := by
  induction is generalizing st with
  | nil => rfl
  | cons i rest ih =>
    simp only [events, List.filterMap_cons]
    cases st with
    | none => exact ih none
    | some l =>
      obtain ⟨buffer, s⟩ := l
      simp only [parsedOver, parsed, delivery, fetchOf, event, Option.bind_some, bufferOf]
      cases made : fetchMade host urlbase i s with
      | none =>
        obtain ⟨answer, ends⟩ := turnStep_unfetched resolver json made
        rw [ends buffer]
        cases answer with
        | none =>
          have crashed := ih none
          simp only [delivery_crashed, taken] at crashed
          simp only [Option.map_none, Option.bind_none, crashed, delivery_crashed, taken]
        | some o => exact ih (some ⟨buffer, s⟩)
      | some f =>
        cases ok : f.transfer.ok with
        | false =>
          rw [turnStep_failed resolver json made ok]
          simpa [ok, taken, bufferOf] using ih (some ⟨buffer ++ f.transfer.delivered, s⟩)
        | true =>
          rw [turnStep_parsed resolver json made ok]
          cases run (servePull host resolver)
              (parseVersion json i.env f (buffer ++ f.transfer.delivered)) s with
          | none => simpa [ok, taken, bufferOf] using ih none
          | some answer => simpa [ok, taken, bufferOf] using ih (some ⟨[], answer.2⟩)

theorem parsesOwn_iff_over (es : List Turn) :
    (∀ e ∈ es, ParsesOwn host urlbase e) ↔
      ∀ t ∈ es.filterMap (parsedOver host urlbase), t.1 = t.2 := by
  constructor
  · intro own t mem
    obtain ⟨e, he, pairs⟩ := List.mem_filterMap.mp mem
    obtain ⟨bytes, hparsed, rest⟩ := Option.bind_eq_some_iff.mp pairs
    obtain ⟨f, hf, rfl⟩ := Option.map_eq_some_iff.mp rest
    exact own e he bytes hparsed f hf
  · intro pairs e he bytes hparsed f hf
    refine pairs (bytes, f.transfer.delivered) (List.mem_filterMap.mpr ⟨e, he, ?_⟩)
    rw [parsedOver, Option.mem_def.mp hparsed, Option.bind_some, Option.mem_def.mp hf,
      Option.map_some]

theorem noLeftovers_iff (es : List Turn) :
    NoLeftovers host urlbase es ↔ (es.filterMap (delivery host urlbase)).Pairwise
      fun d d' => d.2 = false → d.1 ≠ [] → d'.2 = false := by
  rw [NoLeftovers, List.pairwise_filterMap]
  apply Iff.of_eq
  congr 1
  funext e e'
  simp only [delivery, Option.map_eq_some_iff, eq_iff_iff]
  constructor
  · rintro apart _ ⟨f, hf, rfl⟩ _ ⟨f', hf', rfl⟩ failed halfway
    have silent := apart ⟨f, hf, failed, halfway⟩
    exact Bool.eq_false_iff.mpr fun ok => silent ⟨f', hf', ok⟩
  · rintro apart ⟨f, hf, failed, halfway⟩ ⟨f', hf', ok⟩
    have silent := apart _ ⟨f, hf, rfl⟩ _ ⟨f', hf', rfl⟩ failed halfway
    rw [ok] at silent
    cases silent

/-- Leaving out a change whose transfer failed leaves out its outcome. -/
theorem erase_failed (is : List FeedEntry) (st : Option LoopState) (k : Nat)
    (clean : NoLeftovers host urlbase (events (turnStep host resolver json urlbase) st is))
    {e : Turn} (found : (events (turnStep host resolver json urlbase) st is)[k]? = some e)
    (failed : FetchFailed host urlbase e) :
    let step := turnStep host resolver json urlbase
    outputs step st (is.eraseIdx k) = (outputs step st is).eraseIdx k ∧
      (final step st (is.eraseIdx k)).map LoopState.store =
        (final step st is).map LoopState.store := by
  induction is generalizing st k with
  | nil => cases found
  | cons i rest ih =>
    obtain ⟨after, clean⟩ := List.pairwise_cons.mp clean
    cases k with
    | succ k =>
      obtain ⟨answers, store⟩ := ih (turnStep host resolver json urlbase st i).2 k clean found
      exact ⟨congrArg (_ :: ·) answers, store⟩
    | zero =>
      obtain rfl : event (turnStep host resolver json urlbase) st i = e := Option.some.inj found
      obtain ⟨f, hf, failed⟩ := failed
      obtain ⟨l, before, made⟩ := Option.bind_eq_some_iff.mp hf
      obtain rfl : st = some l := before
      have next : turnStep host resolver json urlbase (some l) i =
          (some (.skipped .transport), some ⟨l.buffer ++ f.transfer.delivered, l.store⟩) :=
        turnStep_failed resolver json made failed l.buffer
      by_cases nothing : f.transfer.delivered = []
      · have same : (turnStep host resolver json urlbase (some l) i).2 = some l := by
          rw [next, nothing, List.append_nil]
        exact ⟨congrArg (fun st => outputs (turnStep host resolver json urlbase) st rest) same.symm,
          congrArg (fun st => (final (turnStep host resolver json urlbase) st rest).map
            LoopState.store) same.symm⟩
      · -- The bytes stay in the buffer, and no later turn looks at them.
        have silent := fun e' he' => after e' he' ⟨f, hf, failed, nothing⟩
        obtain ⟨answers, store⟩ := outputs_congr
          (fun a b : Option LoopState => a.map LoopState.store = b.map LoopState.store)
          (fun a b i same quiet => turnStep_alike i same quiet)
          (show (turnStep host resolver json urlbase (some l) i).2.map LoopState.store =
            (some l).map LoopState.store by rw [next]; rfl) silent
        exact ⟨answers.symm, store.symm⟩

end Steps

/-- A failed transfer is isolated exactly if no response is parsed behind one that failed
halfway. -/
theorem isolated_iff (host : LaHost) (resolver : Resolver) (json : JsonLib) (env : RunEnv)
    (p : Puller) (s : BdbStore) :
    Isolated host resolver json env p s ↔
      NoLeftovers host p.urlbase (turns host resolver json env p s) := by
  have own : (∀ e ∈ turns host resolver json env p s, ParsesOwn host p.urlbase e) ↔
      NoLeftovers host p.urlbase (turns host resolver json env p s) := by
    rw [parsesOwn_iff_over, noLeftovers_iff, turns, parsedOver_taken, taken_own_iff]
    simp [bufferOf]
  constructor
  · intro isolated
    exact own.mp isolated.own
  · intro clean
    refine ⟨own.mpr clean, ?_⟩
    rintro k ⟨e, at_, failed⟩
    exact erase_failed (loopEntries json env p) (some ⟨[], s⟩) k clean at_ failed

section Samples

private def brokenHost : LaHost := ⟨emptyObjectCodec, ⟨fun _ => zeroRev, fun _ => []⟩, none⟩

private def brokenFeed : LaCodecValue :=
  changesFeed (.integer 2) [(CString.ofBytes [97], ⟨1, uniformRev 1⟩),
    (CString.ofBytes [98], ⟨1, uniformRev 1⟩)]

private def wholeVersion : LaCodecValue := versionOf [] [uniformRev 1]

/-- The first of two documents breaks off after a byte, the second one arrives. -/
private def brokenRun : RunEnv where
  feed := fun _ => (⟨jsonText brokenFeed, true⟩, 200)
  changes := fun i => { remote := fun _ => if i = 0 then ⟨[123], false⟩ else
    ⟨jsonText wholeVersion, true⟩ }

private def brokenPuller : Puller :=
  ⟨CString.ofBytes [117], CString.ofBytes [117], 63, none, false⟩

private def parsesForeign (e : Turn) : Bool :=
  match parsed brokenHost brokenPuller.urlbase e, fetchOf brokenHost brokenPuller.urlbase e with
  | some bytes, some f => bytes != f.transfer.delivered
  | _, _ => false

/-- The byte of the first document is parsed in front of the second one. -/
theorem broken_off_not_isolated :
    ¬Isolated brokenHost resolveMine (textsOf [brokenFeed, wholeVersion]) brokenRun brokenPuller
      bdbEmpty := by
  intro isolated
  have foreign : ∃ e ∈ turns brokenHost resolveMine (textsOf [brokenFeed, wholeVersion]) brokenRun
      brokenPuller bdbEmpty, parsesForeign e = true := by
    decide +kernel
  obtain ⟨e, he, differs⟩ := foreign
  simp only [parsesForeign] at differs
  split at differs
  · rename_i bytes f hbytes hf
    exact bne_iff_ne.mp differs (isolated.own e he bytes hbytes f hf)
  · cases differs

end Samples

end PullIsolation
