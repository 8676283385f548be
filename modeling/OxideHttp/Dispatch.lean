import OxideHttp.Multipart
import OxideHttp.Compress
import OxideHttp.Schema
import OxideHttp.Cache

/-!
# From the socket to JS (`src/server.rs`: `handle_inner`, `dispatch`)

`dispatch` decides for one request of one route leaf whether it is refused,
answered from the cache or handed to JS, and what the handler will read of its
body.  The crates it calls are parameters (`Env`), and so is the cache lookup.
-/

namespace OxideHttp
namespace Dispatch

open Body Multipart Compress Schema

/-- The configuration of the server, and the libraries that `dispatch` calls. -/
structure Env where
  bodyLimit : Option BodyLimit
  /-- whether `bodyReadTimeout` is set -/
  readTimeout : Bool
  codecs : Codecs
  serde : Serde
  /-- `DefaultHasher` over a body -/
  hashBytes : Bytes → UInt64
  /-- `form_urlencoded::parse` -/
  formUrlencoded : String → List KvPair
  /-- `multer::parse_boundary` -/
  parseBoundary : String → Option String
  /-- `multer::Multipart` on a body and a boundary -/
  multer : List BodyEvent → String → Form
  /-- `str::to_lowercase` -/
  lowercase : String → String

/-- What a route leaf is configured with. -/
structure Leaf where
  schema : Option LeafSchema
  multipart : Option MultipartConfig
  cache : Option Cache.CacheConfig
  /-- the params of a path that matched the pattern of the leaf -/
  params : String → List KvPair

/-- A request as it reaches `dispatch`: its method in upper case, and `head` when
a HEAD request is served by a GET route. -/
structure Request where
  method : String
  head : Bool
  path : String
  queryString : Option String
  header : HeaderMap
  events : List BodyEvent
  methodLine : Cache.OneLine method
  pathLine : Cache.OneLine path
  queryLine : Cache.OneLine (queryString.getD "")

/-- The request side of the `BodyIo` that JS gets. -/
inductive BodySource where
  | none
  | channel (rx : Pipe.State BodyMsg)
  | form (rx : Pipe.State MpEvent)

def BodySource.reqRx : BodySource → Option (Pipe.State BodyMsg)
  | .channel rx => some rx
  | _ => Option.none

structure Handoff where
  body : BodySource
  validated : Validated
  cacheKey : Option String

inductive Outcome where
  | refused (status : Nat)
  | invalid (issues : List Issue)
  | cached (hit : Cache.Hit)
  | toJs (handoff : Handoff)

section Stages

variable (env : Env) (leaf : Leaf) (req : Request)

def Request.headers : List KvPair := collectHeaders req.header

def Request.hasBody : Bool := requestHasBody req.header

def Request.effectiveMethod : String := if req.head then "GET" else req.method

/-- `parse_query`. -/
def parseQuery : Option String → List KvPair
  | some s => env.formUrlencoded s
  | none => []

/-- The schema of the leaf, unless it is empty. -/
def Leaf.activeSchema : Option LeafSchema := leaf.schema.filter fun s => !s.isEmpty

def cacheable : Bool :=
  leaf.cache.isSome && leaf.multipart.isNone &&
    (req.effectiveMethod == "GET" || req.effectiveMethod == "HEAD" ||
      req.effectiveMethod == "QUERY")

def isQuery : Bool := req.effectiveMethod == "QUERY"

def cacheKey (bodyHash : Option UInt64) : String :=
  Cache.key ((leaf.cache.map Cache.CacheConfig.vary).getD []) req.effectiveMethod req.path
    req.queryString req.headers bodyHash

/-- The key that is known before the body. -/
def getKey : Option String :=
  if cacheable leaf req && !isQuery req then some (cacheKey leaf req none) else none

/-- The boundary of a multipart request. -/
def boundary : Option String :=
  (req.headers.find? fun kv => kv.key == "content-type").bind fun kv =>
    env.parseBoundary kv.value

/-- The events of `parse_task`, on a multipart leaf. -/
def multipartEvents : Except Nat (Option (List MpEvent)) :=
  match leaf.multipart with
  | none => .ok none
  | some cfg =>
      match boundary env req with
      | none => .error 415
      | some b =>
          let form := env.multer req.events b
          .ok (some (parseTask env.lowercase cfg form.complete 0 0 form.parts))

def bufferForSchema : Bool :=
  leaf.multipart.isNone && leaf.activeSchema.any LeafSchema.hasBody && req.hasBody

def bufferForCache : Bool := cacheable leaf req && isQuery req && req.hasBody

/-- The status for a body that could not be buffered. -/
def bodyErrStatus : BodyErr → Nat
  | .tooLarge => 413
  | .timeout => 408
  | .aborted => 400

/-- `buffered`, and the `decoded` that only the schema sees. -/
def bufferBodies : Except Nat (Option Bytes × Option Bytes) :=
  if bufferForSchema leaf req || bufferForCache leaf req then
    match bufferBody env.bodyLimit env.readTimeout [] req.events with
    | .error e => .error (bodyErrStatus e)
    | .ok raw =>
        if bufferForSchema leaf req then
          (decodeForSchema env.codecs env.bodyLimit req.headers raw).map fun plain =>
            (some raw, some plain)
        else .ok (some raw, none)
  else .ok (none, none)

/-- The key of a QUERY request, which has the body in it. -/
def queryKey (buffered : Option Bytes) : Option String :=
  if cacheable leaf req && isQuery req then
    some (cacheKey leaf req (buffered.map env.hashBytes))
  else none

def validate (decoded : Option Bytes) : Except (List Issue) Validated :=
  match leaf.activeSchema with
  | none => .ok Validated.default
  | some s =>
      s.validate env.serde (parseQuery env req.queryString) (leaf.params req.path) decoded

/-- The request body channel.  Buffered content goes out as one chunk. -/
def bodySource (form : Option (List MpEvent)) (buffered : Option Bytes) : BodySource :=
  match form, buffered with
  | some events, _ => .form (Pipe.State.start events)
  | none, some b => .channel (Pipe.State.filled [.data b])
  | none, none =>
      if req.hasBody then
        .channel (Pipe.State.start
          (readBodyTask env.bodyLimit env.readTimeout 0 req.events))
      else .none

/-- `dispatch`. -/
def dispatch (lookup : String → Option Cache.Hit) : Outcome :=
  match (getKey leaf req).bind lookup with
  | some hit => .cached hit
  | none =>
      match multipartEvents env leaf req with
      | .error status => .refused status
      | .ok form =>
          match bufferBodies env leaf req with
          | .error status => .refused status
          | .ok bodies =>
              match (queryKey env leaf req bodies.1).bind lookup with
              | some hit => .cached hit
              | none =>
                  match validate env leaf req bodies.2 with
                  | .error issues => .invalid issues
                  | .ok validated =>
                      .toJs
                        { body := bodySource env req form bodies.1
                          validated := validated
                          cacheKey := (getKey leaf req).or (queryKey env leaf req bodies.1) }

/-- `handle_inner`: a declared length over the limit is refused at once. -/
def handleInner (lookup : String → Option Cache.Hit) : Outcome :=
  if (contentLength req.header).any (overLimit env.bodyLimit) then .refused 413
  else dispatch env leaf req lookup

end Stages

/-! ## What reaches JS -/

section ToJs

variable {env : Env} {leaf : Leaf} {req : Request} {lookup : String → Option Cache.Hit}
  {handoff : Handoff}

/-- Everything that a hand-off to JS says about the request. -/
theorem dispatch_toJs (h : dispatch env leaf req lookup = .toJs handoff) :
    (getKey leaf req).bind lookup = none ∧
      ∃ form bodies validated,
        multipartEvents env leaf req = .ok form ∧
        bufferBodies env leaf req = .ok bodies ∧
        (queryKey env leaf req bodies.1).bind lookup = none ∧
        validate env leaf req bodies.2 = .ok validated ∧
        handoff =
          { body := bodySource env req form bodies.1
            validated := validated
            cacheKey := (getKey leaf req).or (queryKey env leaf req bodies.1) } := by
  unfold dispatch at h
  split at h
  case h_1 => cases h
  case h_2 hget =>
    split at h
    case h_1 => cases h
    case h_2 form hform =>
      split at h
      case h_1 => cases h
      case h_2 bodies hbodies =>
        split at h
        case h_1 => cases h
        case h_2 hquery =>
          split at h
          case h_1 => cases h
          case h_2 validated hvalid =>
            exact ⟨hget, form, bodies, validated, hform, hbodies, hquery, hvalid,
              (Outcome.toJs.inj h).symm⟩

theorem handleInner_toJs (h : handleInner env leaf req lookup = .toJs handoff) :
    dispatch env leaf req lookup = .toJs handoff := by
  unfold handleInner at h
  split at h
  case isTrue => cases h
  case isFalse => exact h

/-- A buffered body is the content of the frames, within the limit. -/
theorem bufferBodies_fst {bodies : Option Bytes × Option Bytes} {raw : Bytes}
    (h : bufferBodies env leaf req = .ok bodies) (hraw : bodies.1 = some raw) :
    req.hasBody = true ∧ raw = content req.events ∧
      overLimit env.bodyLimit raw.length = false := by
  unfold bufferBodies at h
  split at h
  case isFalse =>
    obtain rfl := Except.ok.inj h
    cases hraw
  case isTrue hbuffer =>
    have hhas : req.hasBody = true := by
      simp only [bufferForSchema, bufferForCache, Bool.or_eq_true, Bool.and_eq_true]
        at hbuffer
      rcases hbuffer with hbuffer | hbuffer <;> exact hbuffer.2
    split at h
    case h_1 => cases h
    case h_2 raw' hread =>
      obtain ⟨hcontent, hlimit⟩ := bufferBody_ok hread (overLimit_zero _)
      have hsame : bodies.1 = some raw' := by
        split at h
        case isFalse =>
          obtain rfl := Except.ok.inj h
          rfl
        case isTrue =>
          cases hplain : decodeForSchema env.codecs env.bodyLimit req.headers raw' with
          | error st => simp [hplain, Except.map] at h
          | ok plain =>
              rw [hplain] at h
              obtain rfl := Except.ok.inj h
              rfl
      obtain rfl := Option.some.inj (hraw.symm.trans hsame)
      exact ⟨hhas, by simpa using hcontent, hlimit⟩

/-- On a leaf without multipart the handler reads nothing, the buffered content,
or what `read_body_task` sends. -/
theorem source_cases (h : dispatch env leaf req lookup = .toJs handoff)
    (hmp : leaf.multipart = none) :
    (req.hasBody = false ∧ handoff.body = .none) ∨
      (req.hasBody = true ∧ overLimit env.bodyLimit (content req.events).length = false ∧
        handoff.body = .channel (Pipe.State.filled [.data (content req.events)])) ∨
      (req.hasBody = true ∧
        handoff.body = .channel (Pipe.State.start
          (readBodyTask env.bodyLimit env.readTimeout 0 req.events))) := by
  obtain ⟨_, form, ⟨buffered, decoded⟩, validated, hform, hbodies, _, _, rfl⟩ :=
    dispatch_toJs h
  have hnone : form = none := by
    rw [multipartEvents, hmp] at hform
    exact (Except.ok.inj hform).symm
  subst hnone
  cases hbuffered : buffered with
  | some raw =>
      subst hbuffered
      obtain ⟨hhas, rfl, hlimit⟩ := bufferBodies_fst hbodies rfl
      exact Or.inr (Or.inl ⟨hhas, hlimit, rfl⟩)
  | none =>
      subst hbuffered
      cases hhas : req.hasBody with
      | false => exact Or.inl ⟨rfl, by simp [bodySource, hhas]⟩
      | true => exact Or.inr (Or.inr ⟨rfl, by simp [bodySource, hhas]⟩)

/-- On a multipart leaf the handler reads what `parse_task` sends. -/
theorem source_form {cfg : MultipartConfig}
    (h : dispatch env leaf req lookup = .toJs handoff)
    (hmp : leaf.multipart = some cfg) :
    ∃ b, boundary env req = some b ∧
      handoff.body = .form (Pipe.State.start
        (parseTask env.lowercase cfg (env.multer req.events b).complete 0 0
          (env.multer req.events b).parts)) := by
  obtain ⟨_, form, bodies, validated, hform, _, _, _, rfl⟩ := dispatch_toJs h
  rw [multipartEvents, hmp] at hform
  cases hb : boundary env req with
  | none => simp [hb] at hform
  | some b =>
      simp only [hb] at hform
      obtain rfl := Except.ok.inj hform
      exact ⟨b, rfl, rfl⟩

end ToJs

/-! ## No silent loss of a body -/

/-- The handler can read the body to `null`, and whenever it does, it has been
given the content of the frames. -/
def Delivers (src : BodySource) (events : List BodyEvent) : Prop :=
  (∃ ls io, Transition.run Io.step (Io.open src.reqRx) ls = some io ∧
      .ok none ∈ io.reads) ∧
    ∀ ls io, Transition.run Io.step (Io.open src.reqRx) ls = some io →
      .ok none ∈ io.reads → io.handed = content events

theorem delivers_none (events : List BodyEvent) :
    Delivers .none events ↔ content events = [] := by
  constructor
  · rintro ⟨⟨ls, io, hrun, hnull⟩, hall⟩
    rw [← hall ls io hrun hnull, (run_bodyless hrun).handed]
  · intro hnil
    refine ⟨⟨[.read], _, rfl, List.mem_singleton_self _⟩, fun ls io hrun _ => ?_⟩
    rw [(run_bodyless hrun).handed, hnil]

theorem delivers_filled (events : List BodyEvent) :
    Delivers (.channel (Pipe.State.filled [.data (content events)])) events := by
  refine ⟨⟨[.read, .read], _, rfl,
    List.mem_append_right _ (List.mem_singleton_self _)⟩, fun ls io hrun hnull => ?_⟩
  have hsound := run_ioSound (Pipe.sound_filled _) rfl hrun
  rw [hsound.handed.2 hnull]
  simp [BodyMsg.bytes]

theorem delivers_task {limit : Option BodyLimit} {readTimeout : Bool}
    {events : List BodyEvent} (hclean : Clean readTimeout events)
    (hunder : overLimit limit (content events).length = false) :
    Delivers (.channel (Pipe.State.start (readBodyTask limit readTimeout 0 events)))
      events := by
  refine ⟨exists_readToNull _, fun ls io hrun hnull => ?_⟩
  have hsound := run_ioSound (Pipe.sound_start _) rfl hrun
  rw [hsound.handed.2 hnull]
  exact (readBodyTask_clean limit readTimeout 0 events hclean (by simpa using hunder)).1

/--
The handler of a route without multipart gets a clean body within the limit
whole, on every interleaving, exactly when the headers announce a body or there
is none.
-/
theorem body_delivered_iff (env : Env) (leaf : Leaf) (req : Request)
    (lookup : String → Option Cache.Hit) (handoff : Handoff)
    (hmp : leaf.multipart = none) (hclean : Clean env.readTimeout req.events)
    (hunder : overLimit env.bodyLimit (content req.events).length = false)
    (h : handleInner env leaf req lookup = .toJs handoff) :
    Delivers handoff.body req.events ↔
      requestHasBody req.header = true ∨ content req.events = [] := by
  have hsource := source_cases (handleInner_toJs h) hmp
  rw [Request.hasBody] at hsource
  rcases hsource with ⟨hhas, hbody⟩ | ⟨hhas, _, hbody⟩ | ⟨hhas, hbody⟩
  · rw [hbody, delivers_none, hhas]
    simp
  · rw [hbody]
    exact iff_of_true (delivers_filled _) (Or.inl hhas)
  · rw [hbody]
    exact iff_of_true (delivers_task hclean hunder) (Or.inl hhas)

/-! ## A concrete server -/

/-- A form of one field, `hello!`, between boundaries `b`. -/
def formBody : Bytes :=
  [45, 45, 98, 13, 10, 99, 111, 110, 116, 101, 110, 116, 45, 100, 105, 115,
   112, 111, 115, 105, 116, 105, 111, 110, 58, 32, 102, 111, 114, 109, 45,
   100, 97, 116, 97, 59, 32, 110, 97, 109, 101, 61, 34, 102, 34, 13, 10, 13,
   10, 104, 101, 108, 108, 111, 33, 13, 10, 45, 45, 98, 45, 45, 13, 10]

/-- The libraries on the few inputs of the examples below. -/
def sampleEnv : Env where
  bodyLimit := some { bytes := 4, isI64 := by omega }
  readTimeout := true
  codecs := sampleCodecs
  serde :=
    { fromSlice := fun bytes =>
        if bytes = [123, 125] then .ok (.object []) else .error "expected value"
      render := fun _ => "{}"
      parseF64 := fun _ => none }
  hashBytes := fun bytes => UInt64.ofNat bytes.length
  formUrlencoded := fun _ => []
  parseBoundary := fun ct => if ct = "multipart/form-data; boundary=b" then some "b" else none
  multer := fun events b =>
    if content events = formBody ∧ b = "b" then
      { parts := [{ name := some "f", filename := none, contentType := none,
                    chunks := [[104, 101, 108, 108, 111, 33]], complete := true }]
        complete := true }
    else { parts := [], complete := false }
  lowercase := fun s => String.ofList (lower s.toList)

def plainLeaf : Leaf :=
  { schema := none, multipart := none, cache := none, params := fun _ => [] }

/-- A POST to `/` with the given header lines and frames. -/
def post (header : HeaderMap) (events : List BodyEvent) : Request where
  method := "POST"
  head := false
  path := "/"
  queryString := none
  header := header
  events := events
  methodLine := by decide
  pathLine := by decide
  queryLine := by decide

/-- `hi`, in one frame. -/
def hiFrames : List BodyEvent := [.data [104, 105]]

theorem body_delivered_post :
    ∃ handoff,
      handleInner sampleEnv plainLeaf (post [("content-length", [50])] hiFrames)
          (fun _ => none) = .toJs handoff ∧
        Delivers handoff.body hiFrames :=
  ⟨_, rfl,
    (body_delivered_iff sampleEnv plainLeaf (post [("content-length", [50])] hiFrames)
      (fun _ => none) _ rfl
      (by simp [Clean, post, hiFrames]) rfl rfl).2 (Or.inl rfl)⟩

/-- An HTTP/2 request may send frames without a `content-length`; they are lost. -/
theorem body_lost :
    ¬ ∀ (env : Env) (leaf : Leaf) (req : Request) (lookup : String → Option Cache.Hit)
        (handoff : Handoff), leaf.multipart = none →
        Clean env.readTimeout req.events →
        overLimit env.bodyLimit (content req.events).length = false →
        handleInner env leaf req lookup = .toJs handoff →
        Delivers handoff.body req.events := by
  intro hall
  have hdelivers := hall sampleEnv plainLeaf (post [] hiFrames) (fun _ => none) _ rfl
    (by simp [Clean, post, hiFrames]) rfl rfl
  have hnil := (delivers_none hiFrames).1 hdelivers
  cases hnil

/-! ## The body limit -/

/-- Whatever the handler does, it is given at most `n` bytes of the body. -/
def HandsAtMost (n : Nat) : BodySource → Prop
  | .form rx =>
      ∀ ls io, Transition.run MpIo.step (MpIo.open rx) ls = some io →
        io.handed.length ≤ n
  | src =>
      ∀ ls io, Transition.run Io.step (Io.open src.reqRx) ls = some io →
        io.handed.length ≤ n

/-- The handler can reach the end of the body without an error. -/
def Completes : BodySource → Prop
  | .form rx =>
      ∃ ls io, Transition.run MpIo.step (MpIo.open rx) ls = some io ∧ io.complete
  | src => ∃ ls io, Transition.run Io.step (Io.open src.reqRx) ls = some io ∧ io.complete

/-- At most `n` bytes are handed on, and a longer body is never complete. -/
def LimitHolds (n : Nat) (events : List BodyEvent) (src : BodySource) : Prop :=
  HandsAtMost n src ∧ (n < (content events).length → ¬ Completes src)

/-- The same of an answer: where nothing is handed to JS, nothing reaches it. -/
def Outcome.KeepsLimit (n : Nat) (events : List BodyEvent) : Outcome → Prop
  | .toJs handoff => LimitHolds n events handoff.body
  | .refused _ | .invalid _ | .cached _ => True

/-- The form of a multipart request is refused before `n` bytes of its content
are exceeded. -/
def RefusedWithin (env : Env) (cfg : MultipartConfig) (req : Request) (n : Nat) : Prop :=
  ∃ b m, boundary env req = some b ∧ m ≤ n ∧
    RefusedAfter env.lowercase cfg (env.multer req.events b).complete 0 0
      (env.multer req.events b).parts m

/-- Taken without its body, the request is answered before JS: with 413 for the length
that it declares, from the cache, with 415 for a form without a boundary, or with 400 for
what its schema says. -/
def AnsweredUnread (env : Env) (leaf : Leaf) (req : Request)
    (lookup : String → Option Cache.Hit) : Prop :=
  (contentLength req.header).any (overLimit env.bodyLimit) = true ∨
    ((getKey leaf req).bind lookup).isSome = true ∨
    (leaf.multipart.isSome = true ∧ boundary env req = none) ∨
    ((queryKey env leaf req none).bind lookup).isSome = true ∨
    ∃ issues, validate env leaf req none = .error issues

/-- The body is within the limit, or its headers announce it, or its form is
refused in time. -/
def ReaderKeeps (env : Env) (leaf : Leaf) (req : Request) (n : Nat) : Prop :=
  (content req.events).length ≤ n ∨
    match leaf.multipart with
    | none => requestHasBody req.header = true
    | some cfg => RefusedWithin env cfg req n

/-- The condition under which the limit holds. -/
def LimitKept (env : Env) (leaf : Leaf) (req : Request) (lookup : String → Option Cache.Hit)
    (n : Nat) : Prop :=
  AnsweredUnread env leaf req lookup ∨ ReaderKeeps env leaf req n

theorem overLimit_some {l : BodyLimit} {n : Nat} :
    overLimit (some l) n = false ↔ n ≤ l.bytes := by
  simp [overLimit]

theorem limitHolds_none (n : Nat) (events : List BodyEvent) :
    LimitHolds n events .none ↔ (content events).length ≤ n := by
  have hcompletes : Completes .none := by
    refine ⟨[.read], _, rfl, List.mem_singleton_self _, fun r hr e he => ?_⟩
    rw [List.mem_singleton.1 hr] at he
    cases he
  constructor
  · rintro ⟨_, hrefused⟩
    by_contra hover
    exact hrefused (by omega) hcompletes
  · intro hle
    refine ⟨fun ls io hrun => ?_, fun hlt => absurd hlt (by omega)⟩
    rw [(run_bodyless hrun).handed]
    exact Nat.zero_le _

theorem limitHolds_filled {n : Nat} {events : List BodyEvent}
    (hle : (content events).length ≤ n) :
    LimitHolds n events (.channel (Pipe.State.filled [.data (content events)])) := by
  refine ⟨fun ls io hrun => ?_, fun hlt => absurd hlt (by omega)⟩
  have hsound := run_ioSound (Pipe.sound_filled _) rfl hrun
  have hlen := hsound.handed.1.length_le
  simp only [received_cons, received_nil, List.append_nil, BodyMsg.bytes] at hlen
  omega

theorem limitHolds_task (l : BodyLimit) (readTimeout : Bool) (events : List BodyEvent) :
    LimitHolds l.bytes events
      (.channel (Pipe.State.start (readBodyTask (some l) readTimeout 0 events))) := by
  constructor
  · intro ls io hrun
    have hsound := run_ioSound (Pipe.sound_start _) rfl hrun
    have hlen := hsound.handed.1.length_le
    have hwithin := readBodyTask_within (some l) readTimeout 0 events
      (overLimit_zero _)
    rw [overLimit_some, Nat.zero_add] at hwithin
    omega
  · rintro hlt ⟨ls, io, hrun, hcomplete⟩
    have hsound := run_ioSound (Pipe.sound_start _) rfl hrun
    obtain ⟨m, hm, herr⟩ := readBodyTask_over l readTimeout 0 events
      (by simpa [overLimit] using hlt) (overLimit_zero _)
    exact hsound.not_complete hm herr hcomplete

/-- The route of a form: what is sent decides. -/
theorem limitHolds_form {n : Nat} {events : List BodyEvent} {sent : List MpEvent}
    (hread : readable false sent = true) :
    LimitHolds n events (.form (Pipe.State.start sent)) ↔
      (carried sent).length ≤ n ∧
        ((content events).length ≤ n ∨ ∃ e ∈ sent, e.isReject = true) := by
  obtain ⟨ls, io, hrun, hhanded, _, hcomplete⟩ := exists_readForm sent hread
  constructor
  · rintro ⟨hhands, hrefused⟩
    refine ⟨by simpa [hhanded] using hhands ls io hrun, ?_⟩
    by_contra hnone
    rw [not_or, not_exists] at hnone
    refine hrefused (by omega) ⟨ls, io, hrun, hcomplete fun e he => ?_⟩
    by_contra hreject
    exact hnone.2 e ⟨he, by simpa using hreject⟩
  · rintro ⟨hcarried, hover⟩
    constructor
    · intro ls io hrun
      have hsound := run_mpSound (mpSound_open (Pipe.sound_start sent) rfl) hrun
      exact hsound.handed_le.trans hcarried
    · rintro hlt ⟨ls, io, hrun, hcomplete⟩
      have hsound := run_mpSound (mpSound_open (Pipe.sound_start sent) rfl) hrun
      rcases hover with hle | ⟨e, he, hreject⟩
      · omega
      · exact hsound.not_complete he hreject hcomplete

/-- Of a request that reaches a handler the limit holds exactly when its reader keeps
it. -/
theorem limitHolds_iff {env : Env} {leaf : Leaf} {req : Request}
    {lookup : String → Option Cache.Hit} {handoff : Handoff} {l : BodyLimit}
    (hlimit : env.bodyLimit = some l)
    (hmulter : ∀ events b, (env.multer events b).bytes.length ≤ (content events).length)
    (h : handleInner env leaf req lookup = .toJs handoff) :
    LimitHolds l.bytes req.events handoff.body ↔ ReaderKeeps env leaf req l.bytes := by
  have hdispatch := handleInner_toJs h
  cases hmp : leaf.multipart with
  | none =>
      rw [ReaderKeeps, hmp]
      have hsource := source_cases hdispatch hmp
      rw [Request.hasBody, hlimit] at hsource
      rcases hsource with ⟨hhas, hbody⟩ | ⟨hhas, hunder, hbody⟩ | ⟨hhas, hbody⟩
      · rw [hbody, limitHolds_none, hhas]
        simp
      · rw [hbody]
        exact iff_of_true (limitHolds_filled (overLimit_some.1 hunder)) (Or.inr hhas)
      · rw [hbody]
        exact iff_of_true (limitHolds_task l _ _) (Or.inr hhas)
  | some cfg =>
      obtain ⟨b, hb, hbody⟩ := source_form hdispatch hmp
      rw [ReaderKeeps, hmp, hbody, limitHolds_form (parseTask_readable ..)]
      have hle := parseTask_carried_le env.lowercase cfg
        (env.multer req.events b).complete 0 0 (env.multer req.events b).parts
      have hcut := hmulter req.events b
      rw [Form.bytes] at hcut
      constructor
      · rintro ⟨hcarried, hover | ⟨e, he, hreject⟩⟩
        · exact Or.inl hover
        · obtain ⟨m, hm⟩ : ∃ m, RefusedAfter env.lowercase cfg
              (env.multer req.events b).complete 0 0
              (env.multer req.events b).parts m := by
            by_contra hnone
            have hwhole := parseTask_whole env.lowercase cfg (not_exists.1 hnone)
            rw [hwhole.2 e he] at hreject
            cases hreject
          have hlength := (parseTask_refused env.lowercase cfg hm).1
          exact Or.inr ⟨b, m, hb, by omega, hm⟩
      · rintro (hfits | ⟨b', m, hb', hmn, hm⟩)
        · exact ⟨by omega, Or.inl hfits⟩
        · obtain rfl := Option.some.inj (hb.symm.trans hb')
          obtain ⟨hlength, hreject⟩ := parseTask_refused env.lowercase cfg hm
          exact ⟨by omega, Or.inr hreject⟩

/-- Nothing is buffered of a form, nor of a request whose headers announce no body. -/
theorem bufferBodies_unread {env : Env} {leaf : Leaf} {req : Request}
    (h : leaf.multipart.isSome = true ∨ req.hasBody = false) :
    bufferBodies env leaf req = .ok (none, none) := by
  have hnone : (bufferForSchema leaf req || bufferForCache leaf req) = false := by
    rcases h with hsome | hhas
    · have hisNone : leaf.multipart.isNone = false := by
        rw [← Option.not_isSome, hsome]
        rfl
      simp [bufferForSchema, bufferForCache, cacheable, hisNone]
    · simp [bufferForSchema, bufferForCache, hhas]
  rw [bufferBodies, hnone]
  rfl

/-- A request that is not answered unread reaches JS, unless its body is buffered. -/
theorem exists_handoff {env : Env} {leaf : Leaf} {req : Request}
    {lookup : String → Option Cache.Hit} (hread : ¬ AnsweredUnread env leaf req lookup)
    (h : leaf.multipart.isSome = true ∨ req.hasBody = false) :
    ∃ handoff, handleInner env leaf req lookup = .toJs handoff := by
  simp only [AnsweredUnread, not_or] at hread
  obtain ⟨hdeclared, hget, hboundary, hquery, hvalid⟩ := hread
  obtain ⟨form, hform⟩ : ∃ form, multipartEvents env leaf req = .ok form := by
    rw [multipartEvents]
    cases hmp : leaf.multipart with
    | none => exact ⟨_, rfl⟩
    | some cfg =>
        cases hb : boundary env req with
        | none => exact absurd ⟨by rw [hmp]; rfl, hb⟩ hboundary
        | some b => exact ⟨_, rfl⟩
  obtain ⟨validated, hvalidated⟩ : ∃ v, validate env leaf req none = .ok v := by
    cases hv : validate env leaf req none with
    | error issues => exact absurd ⟨issues, hv⟩ hvalid
    | ok v => exact ⟨v, rfl⟩
  simp only [Bool.not_eq_true, Option.isSome_eq_false_iff, Option.isNone_iff_eq_none]
    at hget hquery
  rw [handleInner, if_neg hdeclared, dispatch, hget, hform, bufferBodies_unread h]
  simp only [hquery, hvalidated]
  exact ⟨_, rfl⟩

/-- A request that is answered unread reaches JS only where it has a body that is
read. -/
theorem hasBody_of_handoff {env : Env} {leaf : Leaf} {req : Request}
    {lookup : String → Option Cache.Hit} {handoff : Handoff}
    (hunread : AnsweredUnread env leaf req lookup)
    (h : handleInner env leaf req lookup = .toJs handoff) :
    leaf.multipart = none ∧ req.hasBody = true := by
  by_contra hplain
  have hbuffer : leaf.multipart.isSome = true ∨ req.hasBody = false := by
    cases hmp : leaf.multipart with
    | some cfg => exact Or.inl rfl
    | none => exact Or.inr (Bool.eq_false_iff.2 fun hhas => hplain ⟨hmp, hhas⟩)
  obtain ⟨hget, form, bodies, validated, hform, hbodies, hquery, hvalid, -⟩ :=
    dispatch_toJs (handleInner_toJs h)
  rw [bufferBodies_unread hbuffer] at hbodies
  obtain rfl := Except.ok.inj hbodies
  rcases hunread with hdeclared | hhit | ⟨hmp, hb⟩ | hhit | ⟨issues, hissues⟩
  · rw [handleInner, if_pos hdeclared] at h
    cases h
  · rw [hget] at hhit
    cases hhit
  · obtain ⟨cfg, hcfg⟩ := Option.isSome_iff_exists.1 hmp
    rw [multipartEvents, hcfg, hb] at hform
    cases hform
  · rw [hquery] at hhit
    cases hhit
  · rw [hissues] at hvalid
    cases hvalid

/--
The limit holds for every request exactly when it is kept: the request is answered
unread, or the body is within it, or the route is plain and the headers announce the body,
or the route is multipart and the form is refused in time.
-/
theorem body_limit_iff (env : Env) (leaf : Leaf) (req : Request)
    (lookup : String → Option Cache.Hit) (l : BodyLimit) (hlimit : env.bodyLimit = some l)
    (hmulter : ∀ events b, (env.multer events b).bytes.length ≤ (content events).length) :
    (handleInner env leaf req lookup).KeepsLimit l.bytes req.events ↔
      LimitKept env leaf req lookup l.bytes := by
  have hanswered (hnot : ∀ handoff, handleInner env leaf req lookup ≠ .toJs handoff) :
      LimitKept env leaf req lookup l.bytes := by
    by_contra hkept
    rw [LimitKept, not_or] at hkept
    have hbuffer : leaf.multipart.isSome = true ∨ req.hasBody = false := by
      cases hmp : leaf.multipart with
      | some cfg => exact Or.inl rfl
      | none =>
          refine Or.inr (Bool.eq_false_iff.2 fun hhas => hkept.2 (Or.inr ?_))
          rw [hmp]
          exact hhas
    obtain ⟨handoff, hhandoff⟩ := exists_handoff hkept.1 hbuffer
    exact hnot handoff hhandoff
  cases hout : handleInner env leaf req lookup with
  | refused status => exact iff_of_true trivial (hanswered (by simp [hout]))
  | invalid issues => exact iff_of_true trivial (hanswered (by simp [hout]))
  | cached hit => exact iff_of_true trivial (hanswered (by simp [hout]))
  | toJs handoff =>
      rw [Outcome.KeepsLimit, limitHolds_iff hlimit hmulter hout]
      refine ⟨Or.inr, ?_⟩
      rintro (hunread | hkeeps)
      · obtain ⟨hmp, hhas⟩ := hasBody_of_handoff hunread hout
        refine Or.inr ?_
        rw [hmp]
        exact hhas
      · exact hkeeps

/-- A route that takes any form. -/
def formLeaf : Leaf :=
  { plainLeaf with
    multipart := some
      { maxFileSize := none, maxFieldSize := none, maxFiles := none, maxFields := none,
        allowedMime := none, allowedExt := none } }

/-- `multipart/form-data; boundary=b`. -/
def formHeader : HeaderMap :=
  [("content-type",
    [109, 117, 108, 116, 105, 112, 97, 114, 116, 47, 102, 111, 114, 109, 45,
     100, 97, 116, 97, 59, 32, 98, 111, 117, 110, 100, 97, 114, 121, 61, 98])]

theorem body_limit_post :
    (handleInner sampleEnv plainLeaf (post [("content-length", [50])] hiFrames)
      (fun _ => none)).KeepsLimit 4 hiFrames := by
  have hmulter : ∀ events b,
      (sampleEnv.multer events b).bytes.length ≤ (content events).length := by
    intro events b
    simp only [sampleEnv]
    split
    case isTrue h =>
      rw [h.1]
      decide
    case isFalse => exact Nat.zero_le _
  exact (body_limit_iff sampleEnv plainLeaf (post [("content-length", [50])] hiFrames)
    (fun _ => none) { bytes := 4, isI64 := by omega } rfl hmulter).2
      (Or.inr (Or.inl (by decide)))

/-- A form without a `content-length` hands on six bytes under a limit of four. -/
theorem body_limit_exceeded :
    ¬ ∀ (env : Env) (leaf : Leaf) (req : Request) (lookup : String → Option Cache.Hit)
        (l : BodyLimit), env.bodyLimit = some l →
        (handleInner env leaf req lookup).KeepsLimit l.bytes req.events := by
  intro hall
  have hlimit := hall sampleEnv formLeaf (post formHeader [.data formBody])
    (fun _ => none) { bytes := 4, isI64 := by omega } rfl
  have hcarried := ((limitHolds_form (by decide)).1 hlimit).1
  exact absurd hcarried (by decide)

end Dispatch
end OxideHttp
