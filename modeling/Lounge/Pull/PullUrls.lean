import Lounge.Pull.PullCheckpoint
import Lounge.Pull.PullTurns

/-!
# The feed's URL

`init_changes_feed` appends the checkpoint to the URL that it finds, and leaves the longer URL
to the next run. A continuous pull does so a second time at the end of a run.
-/

namespace PullUrls
open ObjectStore CodecValue RevScan LoungeApi BdbDriver Process PullModel PullCheckpoint PullTurns
  Runs

/-- `filter=` and `since=`. -/
def filterParam (filter : CString) : List UInt8 :=
  [102, 105, 108, 116, 101, 114, 61] ++ filter.bytes
def sinceParam (seq : CString) : List UInt8 := [115, 105, 110, 99, 101, 61] ++ seq.bytes

/-- A question mark before the first parameter, an ampersand before any other. -/
def queryText : List (List UInt8) → List UInt8
  | [] => []
  | first :: rest => 63 :: first ++ rest.flatMap fun param => 38 :: param

/-- `http[s]://host:port/dbname/_changes`. -/
def changesUrl (params : PullParams) : List UInt8 :=
  [104, 116, 116, 112] ++ (if params.secure then [115] else []) ++ [58, 47, 47] ++
    params.host.bytes ++ 58 :: decimal params.port.toNat ++ 47 :: params.dbname.bytes ++
    [47, 95, 99, 104, 97, 110, 103, 101, 115]

/-- The URL of a feed since `since`. -/
def feedUrl (params : PullParams) (since : Option CString) : CString :=
  CString.ofBytes (changesUrl params ++
    queryText (params.filter.toList.map filterParam ++ since.toList.map sinceParam))

/-- The URL that a run asks for. -/
def requestedUrl (e : PullRun) : Option CString :=
  match initChangesFeed e.input.env.init e.before with
  | some (true, p) => some p.url
  | _ => none

/-- The `last_seq` of a run's feed. -/
def lastSeqOf (json : JsonLib) (e : PullRun) : Option LaCodecValue :=
  (feedObject json e.input.env e.before).bind fun feed => feed.laCodecObjectGet lastSeqName

/-- `json_dumps` renders it as a text. -/
def RendersSeq (json : JsonLib) (e : PullRun) : Prop :=
  ∀ value ∈ lastSeqOf json e, ∃ seq, json.dumps value = some seq

/-- The run returned 0. -/
def Succeeded (e : PullRun) : Prop := ∃ ret, e.output = some ret ∧ ret.status = 0

instance (e : PullRun) : Decidable (Succeeded e) :=
  decidable_of_iff (e.output.map PullReturn.status = some 0) Option.map_eq_some_iff

/-- The run behind `earlier` asks for the feed since the `last_seq` of the run before it. -/
def AsksSince (json : JsonLib) (params : PullParams) (earlier : List PullRun) (e : PullRun) :
    Prop :=
  match earlier.getLast?.bind (lastSeqOf json) with
  | none => requestedUrl e = some (feedUrl params none)
  | some value =>
    ∃ seq, json.dumps value = some seq ∧ requestedUrl e = some (feedUrl params (some seq))

/-- No run before the last one had a feed with a `last_seq`, and a continuous pull that set up
its next feed none at all. -/
def NeverExtended (json : JsonLib) (params : PullParams) (earlier : List PullRun) : Prop :=
  (∀ d ∈ earlier.dropLast, lastSeqOf json d = none) ∧
    (params.continuous = true →
      ∀ d ∈ earlier, d.input.env.again.curl = true → lastSeqOf json d = none)

/-- What `init_changes_feed` appends. -/
def sincePart (sep : UInt8) (lastSeq : Option CString) : List UInt8 :=
  lastSeq.elim [] fun seq => sep :: sinceParam seq

theorem sincePart_eq_nil {sep : UInt8} {lastSeq : Option CString} :
    sincePart sep lastSeq = [] ↔ lastSeq = none := by
  cases lastSeq <;> simp [sincePart]

theorem sincePart_noNul {sep : UInt8} (plain : sep ≠ 0) (lastSeq : Option CString) :
    (0 : UInt8) ∉ sincePart sep lastSeq := by
  cases lastSeq with
  | none => simp [sincePart]
  | some seq =>
    have noNul := seq.noNul
    simp [sincePart, sinceParam, plain.symm, noNul]

section Step
variable {env : FeedEnv} {p q : Puller}

/-- The URL grows by the checkpoint, all else stays. -/
theorem initChangesFeed_url (plain : p.sep ≠ 0) {done : Bool}
    (init : initChangesFeed env p = some (done, q)) :
    q.url.bytes = p.url.bytes ++ (if env.curl then sincePart p.sep p.lastSeq else []) ∧
      q.sep = p.sep ∧ q.lastSeq = p.lastSeq ∧ q.continuous = p.continuous ∧
      (done = true → env.curl = true) := by
  simp only [initChangesFeed] at init
  cases hcurl : env.curl with
  | false =>
    simp only [hcurl, Bool.not_false, if_true, Option.some.injEq, Prod.mk.injEq] at init
    obtain ⟨rfl, rfl⟩ := init
    simp
  | true =>
    simp only [hcurl, Bool.not_true, Bool.false_eq_true, if_false] at init
    cases seq : p.lastSeq with
    | none =>
      simp only [seq, Option.some.injEq, Prod.mk.injEq] at init
      obtain ⟨-, rfl⟩ := init
      simp [sincePart, seq]
    | some lastSeq =>
      simp only [seq] at init
      split at init
      · cases init
      · simp only [Option.some.injEq, Prod.mk.injEq] at init
        obtain ⟨-, rfl⟩ := init
        have noNul : (0 : UInt8) ∉ p.url.bytes ++ sincePart p.sep (some lastSeq) := by
          rw [List.mem_append, not_or]
          exact ⟨p.url.noNul, sincePart_noNul plain _⟩
        have bytes := CString.bytes_ofBytes noNul
        simpa [seq, sincePart, sinceParam] using bytes

/-- The end of a run: a continuous pull appends the checkpoint once more. -/
theorem finishRun_url {host : LaHost} {resolver : Resolver} {env : RunEnv} (plain : p.sep ≠ 0)
    {handled : List (LaCodecValue × Outcome)} {s s' : BdbStore} {ret : PullReturn}
    (ran : run (servePull host resolver) (finishRun env p handled) s = some (ret, s')) :
    ret.puller.url.bytes = p.url.bytes ++
        (if p.continuous && env.again.curl then sincePart p.sep p.lastSeq else []) ∧
      ret.puller.sep = p.sep ∧ ret.puller.lastSeq = p.lastSeq ∧
      ret.puller.continuous = p.continuous := by
  rcases finishRun_cases env p with trap | ⟨q, done, kept⟩
  · rw [trap] at ran
    cases ran
  · rw [done] at ran
    cases ran
    rcases kept with ⟨once, rfl⟩ | ⟨continuous, begun, init⟩
    · simp [once]
    · obtain ⟨url, sep, lastSeq, same, -⟩ := initChangesFeed_url plain init
      rw [continuous, Bool.true_and]
      exact ⟨url, sep, lastSeq, same.trans continuous⟩

/-- A run that succeeds asks for the URL it found with its checkpoint appended, and takes the
checkpoint of the feed. -/
theorem pullStep_url {host : LaHost} {json : JsonLib} {i : PullInput} (plain : p.sep ≠ 0)
    (succeeded : Succeeded (event (pullStep host json) p i)) :
    let e := event (pullStep host json) p i
    (∃ url, requestedUrl e = some url ∧ url.bytes = p.url.bytes ++ sincePart p.sep p.lastSeq) ∧
      e.after.url.bytes = p.url.bytes ++ sincePart p.sep p.lastSeq ++
        (if p.continuous && i.env.again.curl then sincePart p.sep e.after.lastSeq else []) ∧
      e.after.lastSeq = (lastSeqOf json e).bind json.dumps ∧
      e.after.sep = p.sep ∧ e.after.continuous = p.continuous := by
  obtain ⟨ret, output, status⟩ := succeeded
  simp only [event, pullStep] at output
  cases ran : run (servePull host i.resolver) (laPullRun json i.env p) i.store with
  | none => simp [ran] at output
  | some end_ =>
    obtain ⟨ret', s'⟩ := end_
    simp only [ran, Option.some.injEq] at output
    subst output
    have after : (event (pullStep host json) p i).after = ret'.puller := by
      simp only [event, pullStep, ran]
    simp only [after]
    rcases laPullRun_cases json i.env p with ⟨-, trap | ⟨q, done⟩⟩ |
      ⟨q, feed, changes, init, arrived, loaded, -, -, loop⟩
    · rw [trap] at ran
      cases ran
    · rw [done] at ran
      cases ran
      cases status
    · rw [loop, run_bind] at ran
      obtain ⟨handled, -, finish⟩ := Option.bind_eq_some_iff.mp ran
      obtain ⟨url, sep, lastSeq, continuous, asked⟩ := initChangesFeed_url plain init
      rw [asked rfl, if_pos rfl] at url
      have plain' : q.sep ≠ 0 := sep ▸ plain
      obtain ⟨url', sep', lastSeq', continuous'⟩ := finishRun_url
        (p := { q with lastSeq := (feed.laCodecObjectGet lastSeqName).bind json.dumps }) plain'
        finish
      have received : lastSeqOf json (event (pullStep host json) p i) =
          feed.laCodecObjectGet lastSeqName := by
        have object : feedObject json i.env p = some feed := by
          simp only [feedObject, init, arrived, if_true]
          exact loaded
        simp [lastSeqOf, event, object]
      refine ⟨⟨q.url, ?_, url⟩, ?_, ?_, sep'.trans sep, continuous'.trans continuous⟩
      · simp only [requestedUrl, event, init]
      · rw [url', lastSeq', url, sep, continuous]
      · rw [lastSeq', received]

end Step

/-- What the runs before have appended to the URL. -/
def appended (e : PullRun) : List UInt8 :=
  sincePart e.before.sep e.before.lastSeq ++
    (if e.before.continuous && e.input.env.again.curl then sincePart e.before.sep e.after.lastSeq
      else [])

/-- The puller behind its past runs, created with `first`. -/
structure Behind (json : JsonLib) (first : Puller) (p : Puller) (past : List PullRun) : Prop where
  renders : ∀ d ∈ past, RendersSeq json d
  sep : p.sep = first.sep
  continuous : p.continuous = first.continuous
  url : p.url.bytes = first.url.bytes ++ past.flatMap appended
  lastSeq : p.lastSeq = (past.getLast?.bind (lastSeqOf json)).bind json.dumps
  unextended : past.flatMap appended = [] ↔
    (∀ d ∈ past.dropLast, lastSeqOf json d = none) ∧
      (first.continuous = true → ∀ d ∈ past, d.input.env.again.curl = true →
        lastSeqOf json d = none)

section Runs
variable {host : LaHost} {json : JsonLib} {first : Puller}

theorem rendered_lastSeq {e : PullRun} (renders : RendersSeq json e) :
    (lastSeqOf json e).bind json.dumps = none ↔ lastSeqOf json e = none := by
  constructor
  · intro absent
    by_contra carried
    obtain ⟨value, here⟩ := Option.ne_none_iff_exists'.mp carried
    obtain ⟨seq, rendered⟩ := renders value here
    rw [here, Option.bind_some, rendered] at absent
    cases absent
  · intro absent
    rw [absent, Option.bind_none]

theorem forall_mem_iff_dropLast (past : List PullRun) :
    (∀ d ∈ past, lastSeqOf json d = none) ↔
      (∀ d ∈ past.dropLast, lastSeqOf json d = none) ∧
        past.getLast?.bind (lastSeqOf json) = none := by
  rcases List.eq_nil_or_concat past with rfl | ⟨before, d, rfl⟩
  · simp
  · rw [List.concat_eq_append, List.dropLast_concat, List.getLast?_concat, Option.bind_some,
      List.forall_mem_append, List.forall_mem_singleton]

theorem appended_eq_nil {e : PullRun} :
    appended e = [] ↔ e.before.lastSeq = none ∧
      (e.before.continuous = true → e.input.env.again.curl = true → e.after.lastSeq = none) := by
  rw [appended, List.append_eq_nil_iff, sincePart_eq_nil]
  by_cases again : (e.before.continuous && e.input.env.again.curl) = true
  · rw [if_pos again, sincePart_eq_nil]
    simp only [Bool.and_eq_true] at again
    simp [again]
  · rw [if_neg again]
    constructor
    · rintro ⟨before, -⟩
      exact ⟨before, fun continuous set =>
        absurd (Bool.and_eq_true_iff.mpr ⟨continuous, set⟩) again⟩
    · rintro ⟨before, -⟩
      exact ⟨before, rfl⟩

theorem Behind.next (plain : first.sep ≠ 0) {p : Puller} {past : List PullRun}
    (behind : Behind json first p past) (i : PullInput)
    (succeeded : Succeeded (event (pullStep host json) p i))
    (renders : RendersSeq json (event (pullStep host json) p i)) :
    Behind json first (pullStep host json p i).2 (past ++ [event (pullStep host json) p i]) := by
  obtain ⟨-, url, lastSeq, sep, continuous⟩ := pullStep_url (behind.sep ▸ plain) succeeded
  have last : (past ++ [event (pullStep host json) p i]).getLast?.bind (lastSeqOf json) =
      lastSeqOf json (event (pullStep host json) p i) := by
    rw [List.getLast?_concat, Option.bind_some]
  have here : p.lastSeq = none ↔ past.getLast?.bind (lastSeqOf json) = none := by
    rw [behind.lastSeq]
    cases latest : past.getLast? with
    | none => simp
    | some d => exact rendered_lastSeq (behind.renders d (List.mem_of_getLast? latest))
  refine ⟨?_, sep.trans behind.sep, continuous.trans behind.continuous, ?_, ?_, ?_⟩
  · rw [List.forall_mem_append, List.forall_mem_singleton]
    exact ⟨behind.renders, renders⟩
  · rw [List.flatMap_append, ← List.append_assoc, ← behind.url, List.flatMap_singleton]
    exact url.trans (List.append_assoc _ _ _)
  · rw [last]
    exact lastSeq
  · rw [List.flatMap_append, List.append_eq_nil_iff, behind.unextended, List.flatMap_singleton,
      appended_eq_nil, List.dropLast_concat, forall_mem_iff_dropLast past]
    have before : (event (pullStep host json) p i).before = p := rfl
    have after : (event (pullStep host json) p i).after.lastSeq = none ↔
        lastSeqOf json (event (pullStep host json) p i) = none := by
      rw [lastSeq]
      exact rendered_lastSeq renders
    rw [before, after, here, behind.continuous]
    simp only [List.forall_mem_append, List.forall_mem_singleton]
    constructor
    · rintro ⟨⟨unseen, again⟩, absent, againHere⟩
      exact ⟨⟨unseen, absent⟩, fun continuous => ⟨again continuous, againHere continuous⟩⟩
    · rintro ⟨⟨unseen, absent⟩, again⟩
      exact ⟨⟨unseen, fun continuous => (again continuous).1⟩, absent,
        fun continuous => (again continuous).2⟩

theorem changesUrl_noNul (params : PullParams) : (0 : UInt8) ∉ changesUrl params := by
  have digits := (decimal_digits params.port.toNat).1
  have port : (0 : UInt8) ∉ decimal params.port.toNat := fun mem => by
    have digit := digits 0 mem
    cases digit
  have hostName := params.host.noNul
  have dbname := params.dbname.noNul
  cases hsecure : params.secure <;> simp [changesUrl, hsecure, port, hostName, dbname]

/-- The separator follows the parameters that the URL has. -/
theorem queryText_since (filter since : Option CString) :
    queryText (filter.toList.map filterParam ++ since.toList.map sinceParam) =
      (filter.elim [] fun f => 63 :: filterParam f) ++
        sincePart (if filter.isSome then 38 else 63) since := by
  cases filter <;> cases since <;> simp [queryText, sincePart]

/-- The URL and the separator of a puller that was just created. -/
theorem laPullCreate_url {params : PullParams} (created : laPullCreate true params = some first) :
    first.sep = (if params.filter.isSome then 38 else 63) ∧ first.lastSeq = none ∧
      first.continuous = params.continuous ∧ first.url.bytes =
        changesUrl params ++ params.filter.elim [] fun f => 63 :: filterParam f := by
  have noNul := changesUrl_noNul params
  simp only [laPullCreate, Bool.not_true, Bool.false_eq_true, if_false] at created
  cases hfilter : params.filter with
  | none =>
    simp only [hfilter, Option.some.injEq] at created
    subst created
    refine ⟨rfl, rfl, rfl, ?_⟩
    rw [Option.elim_none, List.append_nil]
    exact CString.bytes_ofBytes noNul
  | some filter =>
    simp only [hfilter, Option.some.injEq] at created
    subst created
    refine ⟨rfl, rfl, rfl, ?_⟩
    have whole : (0 : UInt8) ∉ changesUrl params ++ 63 :: filterParam filter := by
      have text := filter.noNul
      simp [filterParam, noNul, text]
    have grouped : changesUrl params ++ 63 :: [102, 105, 108, 116, 101, 114, 61] ++ filter.bytes =
        changesUrl params ++ 63 :: filterParam filter := List.append_assoc _ _ _
    exact (congrArg (fun bytes => (CString.ofBytes bytes).bytes) grouped).trans
      (CString.bytes_ofBytes whole)

theorem sep_ne_zero {params : PullParams} (created : laPullCreate true params = some first) :
    first.sep ≠ 0 := by
  rw [(laPullCreate_url created).1]
  split <;> decide

/-- The URL of a feed is that of a new puller, with the checkpoint. -/
theorem feedUrl_since {params : PullParams} (created : laPullCreate true params = some first)
    (since : Option CString) :
    (feedUrl params since).bytes = first.url.bytes ++ sincePart first.sep since := by
  obtain ⟨sep, -, -, url⟩ := laPullCreate_url created
  have text : changesUrl params ++
      queryText (params.filter.toList.map filterParam ++ since.toList.map sinceParam) =
        first.url.bytes ++ sincePart first.sep since := by
    rw [queryText_since, url, sep, List.append_assoc]
  have noNul : (0 : UInt8) ∉ first.url.bytes ++ sincePart first.sep since := by
    rw [List.mem_append, not_or]
    exact ⟨first.url.noNul, sincePart_noNul (sep_ne_zero created) since⟩
  rw [feedUrl, text, CString.bytes_ofBytes noNul]

theorem Behind.start {params : PullParams} (created : laPullCreate true params = some first) :
    Behind json first first [] := by
  have lastSeq := (laPullCreate_url created).2.1
  exact ⟨by simp, rfl, rfl, by simp, by rw [lastSeq]; rfl, by simp⟩

end Runs

/-- Over all runs of a puller: a run asks for the feed since the last checkpoint exactly if the
URL was never extended before. -/
theorem feed_url_iff (host : LaHost) {json : JsonLib} {params : PullParams} {p : Puller}
    (created : laPullCreate true params = some p) (inputs : List PullInput)
    (succeeded : ∀ e ∈ events (pullStep host json) p inputs, Succeeded e)
    (renders : ∀ e ∈ events (pullStep host json) p inputs, RendersSeq json e) :
    ∀ earlier e later, events (pullStep host json) p inputs = earlier ++ e :: later →
      (AsksSince json params earlier e ↔ NeverExtended json params earlier) := by
  intro earlier e later parted
  have plain := sep_ne_zero created
  have continuous := (laPullCreate_url created).2.2.1
  obtain ⟨before, i, past, rfl⟩ := events_split parted
  rw [parted, List.forall_mem_append, List.forall_mem_cons] at succeeded renders
  have behind : Behind json p (final (pullStep host json) p before)
      (events (pullStep host json) p before) := by
    apply recorded (Behind json p) fun e => Succeeded e ∧ RendersSeq json e
    · exact fun s past i behind done => behind.next plain i done.1 done.2
    · exact Behind.start created
    · rw [past]
      exact fun d hd => ⟨succeeded.1 d hd, renders.1 d hd⟩
  rw [past] at behind
  obtain ⟨⟨url, asked, bytes⟩, -⟩ := pullStep_url (behind.sep ▸ plain) succeeded.2.1
  have extended : NeverExtended json params earlier ↔ earlier.flatMap appended = [] := by
    rw [behind.unextended, NeverExtended, continuous]
  have same : ∀ since, (final (pullStep host json) p before).lastSeq = since →
      (some url = some (feedUrl params since) ↔ earlier.flatMap appended = []) := by
    rintro since rfl
    rw [Option.some.injEq, CString.ext_iff, feedUrl_since created, bytes, behind.sep, behind.url,
      List.append_assoc, List.append_cancel_left_eq, List.append_left_eq_self]
  have lastSeq := behind.lastSeq
  rw [AsksSince, extended, asked]
  cases carried : earlier.getLast?.bind (lastSeqOf json) with
  | none =>
    rw [carried] at lastSeq
    exact same none lastSeq
  | some value =>
    obtain ⟨d, hd, here⟩ := Option.bind_eq_some_iff.mp carried
    obtain ⟨seq, rendered⟩ := renders.1 d (List.mem_of_getLast? hd) value here
    rw [carried, Option.bind_some, rendered] at lastSeq
    rw [← same (some seq) lastSeq]
    constructor
    · rintro ⟨seq', rendered', asks⟩
      obtain rfl : seq = seq' := Option.some.inj (rendered.symm.trans rendered')
      exact asks
    · exact fun asks => ⟨seq, rendered, asks⟩

section Samples

private def urlHost : LaHost := ⟨emptyObjectCodec, ⟨fun _ => zeroRev, fun _ => []⟩, none⟩

/-- A `last_seq` that is an array, as `json_dumps` without flags wants it. -/
private def seqValue : LaCodecValue := .array [.integer 1, .string (CString.ofBytes [103, 49])]

private def emptyFeed : LaCodecValue := changesFeed seqValue []

private def quietRun : PullInput where
  store := bdbEmpty
  env := { feed := fun _ => (⟨jsonText emptyFeed, true⟩, 200), changes := fun _ =>
    { remote := fun _ => ⟨[], false⟩ } }
  resolver := resolveMine

private def urlParams (continuous : Bool) : PullParams :=
  ⟨CString.ofBytes [104], 80, CString.ofBytes [100], some (CString.ofBytes [102]), false,
    continuous⟩

private def urlPuller (continuous : Bool) : Puller :=
  (laPullCreate true (urlParams continuous)).get (by cases continuous <;> rfl)

private theorem urlPuller_created (continuous : Bool) :
    laPullCreate true (urlParams continuous) = some (urlPuller continuous) :=
  (Option.some_get _).symm

private theorem emptyFeed_renders (e : PullRun) : RendersSeq (textsOf [emptyFeed]) e := by
  intro value carried
  obtain ⟨feed, object, member⟩ := Option.bind_eq_some_iff.mp carried
  have loaded : ∃ bytes, (textsOf [emptyFeed]).loadb bytes = some feed := by
    simp only [feedObject] at object
    split at object
    · simp only [JsonLib.load] at object
      split at object
      · split at object
        · exact ⟨_, object⟩
        · cases object
      · cases object
    · cases object
  obtain ⟨bytes, loaded⟩ := loaded
  have found : [emptyFeed].find? (fun v => jsonText v == bytes) = some feed := loaded
  have only : feed = emptyFeed := List.mem_singleton.mp (List.mem_of_find?_eq_some found)
  have lastSeq : emptyFeed.laCodecObjectGet lastSeqName = some seqValue := rfl
  rw [only, lastSeq] at member
  obtain rfl := Option.some.inj member
  exact ⟨_, rfl⟩

private def quietRuns (runs : Nat) : Puller :=
  final (pullStep urlHost (textsOf [emptyFeed])) (urlPuller false) (List.replicate runs quietRun)

/-- The second run of a filtered pull. -/
theorem second_feed_url_iff :
    AsksSince (textsOf [emptyFeed]) (urlParams false)
        [event (pullStep urlHost (textsOf [emptyFeed])) (quietRuns 0) quietRun]
        (event (pullStep urlHost (textsOf [emptyFeed])) (quietRuns 1) quietRun) ↔
      NeverExtended (textsOf [emptyFeed]) (urlParams false)
        [event (pullStep urlHost (textsOf [emptyFeed])) (quietRuns 0) quietRun] :=
  feed_url_iff urlHost (urlPuller_created false) [quietRun, quietRun] (by decide +kernel)
    (fun e _ => emptyFeed_renders e) [_] _ [] rfl

private theorem not_asksSince {json : JsonLib} {params : PullParams} {earlier : List PullRun}
    {e : PullRun} (seq : CString)
    (carried : (earlier.getLast?.bind (lastSeqOf json)).bind json.dumps = some seq)
    (other : requestedUrl e ≠ some (feedUrl params (some seq))) :
    ¬AsksSince json params earlier e := by
  intro asks
  rw [AsksSince] at asks
  cases value : earlier.getLast?.bind (lastSeqOf json) with
  | none => simp [value] at carried
  | some value' =>
    rw [value, Option.bind_some] at carried
    rw [value] at asks
    obtain ⟨seq', rendered, asked⟩ := asks
    obtain rfl : seq = seq' := Option.some.inj (carried.symm.trans rendered)
    exact other asked

/-- The third run of a pull asks for two checkpoints, the second one of a continuous pull for the
same one twice. -/
theorem later_feed_url_extended :
    (∀ e, RendersSeq (textsOf [emptyFeed]) e) ∧
    (∀ continuous, laPullCreate true (urlParams continuous) = some (urlPuller continuous) ∧
      ∀ e ∈ events (pullStep urlHost (textsOf [emptyFeed])) (urlPuller continuous)
        [quietRun, quietRun, quietRun], Succeeded e) ∧
    (¬∀ earlier e later, events (pullStep urlHost (textsOf [emptyFeed])) (urlPuller false)
        [quietRun, quietRun, quietRun] = earlier ++ e :: later →
      AsksSince (textsOf [emptyFeed]) (urlParams false) earlier e) ∧
    ¬∀ earlier e later, events (pullStep urlHost (textsOf [emptyFeed])) (urlPuller true)
        [quietRun, quietRun] = earlier ++ e :: later →
      AsksSince (textsOf [emptyFeed]) (urlParams true) earlier e := by
  refine ⟨emptyFeed_renders, fun continuous => ⟨urlPuller_created continuous, ?_⟩, ?_, ?_⟩
  · cases continuous <;> decide +kernel
  · intro asks
    exact not_asksSince (CString.ofBytes (jsonText seqValue)) (by decide +kernel)
      (by decide +kernel) (asks [_, _] _ [] rfl)
  · intro asks
    exact not_asksSince (CString.ofBytes (jsonText seqValue)) (by decide +kernel)
      (by decide +kernel) (asks [_] _ [] rfl)

end Samples

end PullUrls
