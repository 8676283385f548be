import OxideHttp.Dispatch
import OxideHttp.Multipart.Authentic

/-!
# The bytes of request bodies (`src/metrics.rs`, `src/server.rs`, `src/multipart.rs`)

Who reads a request body depends on its route: `buffer_body` inside `dispatch`, or a task
next to it, `read_body_task` or `parse_task`.  A server is its counter of body bytes and the
requests that have reached `handle_inner`, each with its reader; they move in any order, one
frame or one move of a task or of the handler at a time.  Beside the counter a state keeps
the bytes of the data frames that were read.  A request that is answered before it has a
route reads nothing and is left out.

Results.
* `run_outcome`: frame by frame, a request comes to the outcome that `handleInner` computes.
* `run_exact`: the counter is, up to its width, the bytes that `buffer_body` and
  `read_body_task` have read; `complete_of_plain` for the runs without forms.
* `complete_iff`: the counter is complete throughout a run just when no frame with bytes is
  read by `parse_task`, and the bytes fit the counter.
-/

namespace OxideHttp
namespace RequestBytes

open Body Compress Multipart Dispatch Transition

/-! ## The counter -/

/-- The part of `Metrics` that counts body bytes. -/
structure Metrics where
  requestBytes : UInt64
  deriving DecidableEq, Repr

def Metrics.new : Metrics := { requestBytes := 0 }

/-- `add_request_bytes`: `fetch_add` wraps around. -/
def Metrics.addRequestBytes (m : Metrics) (n : UInt64) : Metrics where
  requestBytes := m.requestBytes + n

/-- `http_request_body_bytes_total`, as `render` prints it. -/
def Metrics.requestBodyBytesTotal (m : Metrics) : Nat := m.requestBytes.toNat

/-- `metrics.add_request_bytes(data.len() as u64)`, for a frame that has data. -/
def Metrics.countFrame (m : Metrics) : BodyEvent → Metrics
  | .data b => m.addRequestBytes (UInt64.ofNat b.length)
  | _ => m

@[simp] theorem addRequestBytes_zero (m : Metrics) : m.addRequestBytes 0 = m := by
  rw [Metrics.addRequestBytes, UInt64.add_zero]

theorem countFrame_eq (m : Metrics) (e : BodyEvent) :
    m.countFrame e = m.addRequestBytes (UInt64.ofNat e.bytes.length) := by
  cases e with
  | data b => rfl
  | trailers | error | stall => exact (addRequestBytes_zero m).symm

/-- The counter is right modulo its width. -/
theorem total_addRequestBytes {m : Metrics} {n k : Nat}
    (h : m.requestBodyBytesTotal = n % 2 ^ 64) :
    (m.addRequestBytes (UInt64.ofNat k)).requestBodyBytesTotal = (n + k) % 2 ^ 64 := by
  rw [Metrics.requestBodyBytesTotal] at h ⊢
  rw [Metrics.addRequestBytes, UInt64.toNat_add, UInt64.toNat_ofNat', h, ← Nat.add_mod]

/-! ## Readers -/

/-- Who reads the body of a request. -/
inductive Reader where
  /-- nobody yet -/
  | pending
  /-- `buffer_body` awaits `body.frame()` and has collected `buf` -/
  | buffering (buf : Bytes) (events : List BodyEvent)
  /-- `read_body_task` -/
  | uploading (u : Upload)
  /-- `parse_task`, whose parser has not taken `unread` off the body yet -/
  | parsing (cfg : MultipartConfig) (complete : Bool) (f : FormIo) (unread : List BodyEvent)
  /-- nobody, or nobody any more -/
  | idle

/-- A request in `handle_inner`, with what the cache has for it. -/
structure Serving where
  leaf : Leaf
  req : Request
  lookup : String → Option Cache.Hit
  reader : Reader
  /-- what `dispatch` has decided -/
  outcome : Option Outcome

def Serving.arrived (leaf : Leaf) (req : Request) (lookup : String → Option Cache.Hit) :
    Serving where
  leaf := leaf
  req := req
  lookup := lookup
  reader := .pending
  outcome := none

/-- The same request with another reader. -/
def Serving.readBy (q : Serving) (reader : Reader) : Serving := { q with reader := reader }

/-- The outcome is decided, and the body is left to `reader`. -/
def Serving.settled (q : Serving) (reader : Reader) (o : Outcome) : Serving :=
  { q with reader := reader, outcome := some o }

inductive Act where
  /-- `dispatch` runs to its first await of the body, or to its outcome -/
  | dispatch
  /-- `body.frame()` resolves for `buffer_body` -/
  | frame
  /-- the future of the request is dropped: the connection is gone -/
  | drop
  /-- `read_body_task` or its receiver moves -/
  | upload (l : UploadLabel)
  /-- the parser that `parse_task` awaits takes the next frame -/
  | pull
  /-- `parse_task` or its receiver moves -/
  | form (l : FormLabel)
  deriving DecidableEq, Repr

section Acts

variable (env : Env)

/-- The rest of `dispatch` once no body has to be buffered any more. -/
def Serving.answer (q : Serving) (form : Option (List MpEvent))
    (bodies : Option Bytes × Option Bytes) : Outcome :=
  match (queryKey env q.leaf q.req bodies.1).bind q.lookup with
  | some hit => .cached hit
  | none =>
      match validate env q.leaf q.req bodies.2 with
      | .error issues => .invalid issues
      | .ok validated =>
          .toJs
            { body := bodySource env q.req form bodies.1
              validated := validated
              cacheKey := (getKey q.leaf q.req).or (queryKey env q.leaf q.req bodies.1) }

/-- What `dispatch` makes of the result of `buffer_body`. -/
def Serving.settle (q : Serving) : Except BodyErr Bytes → Outcome
  | .error e => .refused (bodyErrStatus e)
  | .ok raw =>
      if bufferForSchema q.leaf q.req then
        match decodeForSchema env.codecs env.bodyLimit q.req.headers raw with
        | .error status => .refused status
        | .ok plain => q.answer env none (some raw, some plain)
      else q.answer env none (some raw, none)

/-- `handle_inner` and `dispatch` up to the first await of the body.  A form is parsed from
here on, also when the request is refused in `answer`; then its receiver goes away. -/
def Serving.dispatch (q : Serving) : Serving :=
  if (contentLength q.req.header).any (overLimit env.bodyLimit) then
    q.settled .idle (.refused 413)
  else
    match (getKey q.leaf q.req).bind q.lookup with
    | some hit => q.settled .idle (.cached hit)
    | none =>
        match q.leaf.multipart with
        | some cfg =>
            match boundary env q.req with
            | none => q.settled .idle (.refused 415)
            | some b =>
                let form := env.multer q.req.events b
                let events := parseTask env.lowercase cfg form.complete 0 0 form.parts
                q.settled (.parsing cfg form.complete (FormIo.open form) q.req.events)
                  (q.answer env (some events) (none, none))
        | none =>
            if bufferForSchema q.leaf q.req || bufferForCache q.leaf q.req then
              q.readBy (.buffering [] q.req.events)
            else
              match q.answer env none (none, none) with
              | .toJs handoff =>
                  q.settled (if q.req.hasBody then .uploading (Upload.open q.req.events) else .idle)
                    (.toJs handoff)
              | o => q.settled .idle o

/-- One turn of the loop of `buffer_body`, and what follows when it returns. -/
def Serving.bufferFrame (m : Metrics) (q : Serving) (buf : Bytes) :
    List BodyEvent → Metrics × Serving
  | [] => (m, q.settled .idle (q.settle env (.ok buf)))
  | .data b :: events =>
      let m := m.countFrame (.data b)
      if overLimit env.bodyLimit (buf.length + b.length) then
        (m, q.settled .idle (q.settle env (.error .tooLarge)))
      else (m, q.readBy (.buffering (buf ++ b) events))
  | .trailers :: events => (m, q.readBy (.buffering buf events))
  | .error :: _ => (m, q.settled .idle (q.settle env (.error .aborted)))
  | .stall :: events =>
      if env.readTimeout then (m, q.settled .idle (q.settle env (.error .timeout)))
      else (m, q.readBy (.buffering buf events))

/-- `read_body_task` counts a frame as soon as it has it, before it looks at the limit. -/
def countTaken (m : Metrics) : ReadTask → Metrics
  | .nextFrame _ (e :: _) => m.countFrame e
  | _ => m

/-- The body after the parser has taken a frame; an error ends it. -/
def pulled : List BodyEvent → Option (List BodyEvent)
  | [] => none
  | .error :: _ => some []
  | _ :: events => some events

/-- One act of a request.  How far the parser reads ahead is up to the schedule, as long as
`parse_task` awaits it. -/
def Serving.act (m : Metrics) (q : Serving) : Act → Option (Metrics × Serving)
  | .dispatch =>
      match q.reader with
      | .pending => some (m, q.dispatch env)
      | _ => none
  | .frame =>
      match q.reader with
      | .buffering buf events => some (q.bufferFrame env m buf events)
      | _ => none
  | .drop =>
      match q.reader with
      | .pending | .buffering .. => some (m, q.readBy .idle)
      | _ => none
  | .upload l =>
      match q.reader with
      | .uploading u =>
          (u.step env.bodyLimit env.readTimeout l).map fun v =>
            (if l = .frame then countTaken m u.feed.task else m, q.readBy (.uploading v))
      | _ => none
  | .pull =>
      match q.reader with
      | .parsing cfg complete f unread =>
          if (f.feed.work (ParseTask.await env.lowercase cfg complete)).isSome then
            (pulled unread).map fun rest => (m, q.readBy (.parsing cfg complete f rest))
          else none
      | _ => none
  | .form l =>
      match q.reader with
      | .parsing cfg complete f unread =>
          (f.step env.lowercase cfg complete l).map fun g =>
            (m, q.readBy (.parsing cfg complete g unread))
      | _ => none

end Acts

/-- The bytes of the first frame. -/
def nextBytes : List BodyEvent → Nat
  | [] => 0
  | e :: _ => e.bytes.length

/-- The frames that `read_body_task` has before it where it awaits one. -/
def ahead : ReadTask → List BodyEvent
  | .nextFrame _ events => events
  | _ => []

/-- The bytes that the act reads off the connection. -/
def Serving.takes (q : Serving) : Act → Nat
  | .frame =>
      match q.reader with
      | .buffering _ events => nextBytes events
      | _ => 0
  | .upload .frame =>
      match q.reader with
      | .uploading u => nextBytes (ahead u.feed.task)
      | _ => 0
  | .pull =>
      match q.reader with
      | .parsing _ _ _ unread => nextBytes unread
      | _ => 0
  | _ => 0

/-! ## Servers -/

/-- The counter, and every request so far. -/
structure State where
  metrics : Metrics
  /-- the bytes of the data frames that were read off the connections -/
  readOff : Nat
  /-- those of them that a parser took -/
  parsed : Nat
  reqs : List Serving

def State.init : State := { metrics := Metrics.new, readOff := 0, parsed := 0, reqs := [] }

inductive Label where
  | accept (leaf : Leaf) (req : Request) (lookup : String → Option Cache.Hit)
  | act (i : Nat) (a : Act)

def step (env : Env) (s : State) : Label → Option State
  | .accept leaf req lookup => some { s with reqs := s.reqs ++ [.arrived leaf req lookup] }
  | .act i a =>
      s.reqs[i]?.bind fun q =>
        (q.act env s.metrics a).map fun r =>
          { metrics := r.1
            readOff := s.readOff + q.takes a
            parsed := s.parsed + if a = .pull then q.takes a else 0
            reqs := s.reqs.set i r.2 }

/-- The counter is complete. -/
def Accounted (s : State) : Prop := s.metrics.requestBodyBytesTotal = s.readOff

/-- The act reads nothing that `parse_task` would have to count, and the counter has room. -/
def Counts (s : State) : Label → Prop
  | .accept .. => True
  | .act i a => ∀ q ∈ s.reqs[i]?, (a = .pull → q.takes a = 0) ∧ s.readOff + q.takes a < 2 ^ 64

/-! ## What an act can do -/

/-- Everything an act can do. -/
inductive Acts (env : Env) (m : Metrics) (q : Serving) : Act → Metrics → Serving → Prop
  | dispatch (h : q.reader = .pending) : Acts env m q .dispatch m (q.dispatch env)
  | frame {buf : Bytes} {events : List BodyEvent} (h : q.reader = .buffering buf events) :
      Acts env m q .frame (q.bufferFrame env m buf events).1 (q.bufferFrame env m buf events).2
  | drop : Acts env m q .drop m (q.readBy .idle)
  | upload {u v : Upload} {l : UploadLabel} (h : q.reader = .uploading u)
      (hstep : u.step env.bodyLimit env.readTimeout l = some v) :
      Acts env m q (.upload l) (if l = .frame then countTaken m u.feed.task else m)
        (q.readBy (.uploading v))
  | pull {cfg : MultipartConfig} {complete : Bool} {f : FormIo} {unread rest : List BodyEvent}
      (h : q.reader = .parsing cfg complete f unread) (hrest : pulled unread = some rest) :
      Acts env m q .pull m (q.readBy (.parsing cfg complete f rest))
  | form {cfg : MultipartConfig} {complete : Bool} {f g : FormIo} {unread : List BodyEvent}
      {l : FormLabel} (h : q.reader = .parsing cfg complete f unread)
      (hstep : f.step env.lowercase cfg complete l = some g) :
      Acts env m q (.form l) m (q.readBy (.parsing cfg complete g unread))

theorem acts_of_act {env : Env} {m m' : Metrics} {q r : Serving} {a : Act}
    (h : q.act env m a = some (m', r)) : Acts env m q a m' r := by
  cases a with
  | dispatch =>
      simp only [Serving.act] at h
      split at h
      case h_1 hreader =>
        obtain ⟨rfl, rfl⟩ := Prod.mk.inj (Option.some.inj h)
        exact .dispatch hreader
      case h_2 => cases h
  | frame =>
      simp only [Serving.act] at h
      split at h
      case h_1 buf events hreader =>
        obtain ⟨rfl, rfl⟩ := Prod.mk.inj (Option.some.inj h)
        exact .frame hreader
      case h_2 => cases h
  | drop =>
      simp only [Serving.act] at h
      split at h
      case h_1 | h_2 =>
        obtain ⟨rfl, rfl⟩ := Prod.mk.inj (Option.some.inj h)
        exact .drop
      case h_3 => cases h
  | upload l =>
      simp only [Serving.act] at h
      split at h
      case h_1 u hreader =>
        obtain ⟨v, hstep, hr⟩ := Option.map_eq_some_iff.1 h
        obtain ⟨rfl, rfl⟩ := Prod.mk.inj hr
        exact .upload hreader hstep
      case h_2 => cases h
  | pull =>
      simp only [Serving.act] at h
      split at h
      case h_1 cfg complete f unread hreader =>
        rw [Option.ite_none_right_eq_some] at h
        obtain ⟨rest, hrest, hr⟩ := Option.map_eq_some_iff.1 h.2
        obtain ⟨rfl, rfl⟩ := Prod.mk.inj hr
        exact .pull hreader hrest
      case h_2 => cases h
  | form l =>
      simp only [Serving.act] at h
      split at h
      case h_1 cfg complete f unread hreader =>
        obtain ⟨g, hstep, hr⟩ := Option.map_eq_some_iff.1 h
        obtain ⟨rfl, rfl⟩ := Prod.mk.inj hr
        exact .form hreader hstep
      case h_2 => cases h

/-! ## What is counted -/

section Counting

variable {env : Env} {m m' : Metrics} {q r : Serving} {a : Act}

theorem bufferFrame_metrics (buf : Bytes) (events : List BodyEvent) :
    (q.bufferFrame env m buf events).1 = m.addRequestBytes (UInt64.ofNat (nextBytes events)) := by
  cases events with
  | nil => exact (addRequestBytes_zero m).symm
  | cons e events =>
      rw [nextBytes, ← countFrame_eq]
      cases e with
      | data b =>
          rw [Serving.bufferFrame]
          split
          · rfl
          · rfl
      | trailers | error => rfl
      | stall =>
          rw [Serving.bufferFrame]
          split
          · rfl
          · rfl

theorem countTaken_eq (task : ReadTask) :
    countTaken m task = m.addRequestBytes (UInt64.ofNat (nextBytes (ahead task))) := by
  cases task with
  | nextFrame total events =>
      cases events with
      | nil => exact (addRequestBytes_zero m).symm
      | cons e events => exact countFrame_eq m e
  | sendData | sendLast | returned => exact (addRequestBytes_zero m).symm

/-- `buffer_body` and `read_body_task` count what they read, and `parse_task` counts
nothing. -/
theorem act_metrics (h : q.act env m a = some (m', r)) :
    m' = if a = .pull then m else m.addRequestBytes (UInt64.ofNat (q.takes a)) := by
  cases acts_of_act h with
  | dispatch | drop | form => exact (addRequestBytes_zero m).symm
  | pull => rfl
  | frame hreader =>
      simp only [Serving.takes, hreader]
      exact bufferFrame_metrics _ _
  | @upload u v l hreader hstep =>
      cases l with
      | frame =>
          simp only [Serving.takes, hreader]
          exact countTaken_eq u.feed.task
      | send | dropTask | read | dropIo => exact (addRequestBytes_zero m).symm

end Counting

/-! ## How a request comes to its outcome -/

section Outcome

variable {env : Env} {m m' : Metrics} {q r : Serving} {a : Act}

theorem handleInner_answer {form : Option (List MpEvent)} {bodies : Option Bytes × Option Bytes}
    (hlength : (contentLength q.req.header).any (overLimit env.bodyLimit) = false)
    (hget : (getKey q.leaf q.req).bind q.lookup = none)
    (hform : multipartEvents env q.leaf q.req = .ok form)
    (hbodies : bufferBodies env q.leaf q.req = .ok bodies) :
    handleInner env q.leaf q.req q.lookup = q.answer env form bodies := by
  simp only [handleInner, hlength, Dispatch.dispatch, hget, hform, hbodies]
  rfl

/-- The outcome is up to what `buffer_body` returns. -/
theorem handleInner_settle
    (hlength : (contentLength q.req.header).any (overLimit env.bodyLimit) = false)
    (hget : (getKey q.leaf q.req).bind q.lookup = none) (hmp : q.leaf.multipart = none)
    (hbuffer : (bufferForSchema q.leaf q.req || bufferForCache q.leaf q.req) = true) :
    handleInner env q.leaf q.req q.lookup =
      q.settle env (bufferBody env.bodyLimit env.readTimeout [] q.req.events) := by
  have hform : multipartEvents env q.leaf q.req = .ok none := by
    rw [multipartEvents, hmp]
  cases hread : bufferBody env.bodyLimit env.readTimeout [] q.req.events with
  | error e =>
      have hbodies : bufferBodies env q.leaf q.req = .error (bodyErrStatus e) := by
        rw [bufferBodies, if_pos hbuffer, hread]
      simp only [handleInner, hlength, Dispatch.dispatch, hget, hform, hbodies]
      rfl
  | ok raw =>
      rw [Serving.settle]
      split
      case isTrue hschema =>
        cases hplain : decodeForSchema env.codecs env.bodyLimit q.req.headers raw with
        | error status =>
            have hbodies : bufferBodies env q.leaf q.req = .error status := by
              rw [bufferBodies, if_pos hbuffer, hread]
              simp [hschema, hplain, Except.map]
            simp only [handleInner, hlength, Dispatch.dispatch, hget, hform, hbodies]
            rfl
        | ok plain =>
            have hbodies : bufferBodies env q.leaf q.req = .ok (some raw, some plain) := by
              rw [bufferBodies, if_pos hbuffer, hread]
              simp [hschema, hplain, Except.map]
            exact handleInner_answer hlength hget hform hbodies
      case isFalse hschema =>
        have hbodies : bufferBodies env q.leaf q.req = .ok (some raw, none) := by
          rw [bufferBodies, if_pos hbuffer, hread]
          simp [hschema]
        exact handleInner_answer hlength hget hform hbodies

/-- The readers that `dispatch` may leave the body to when it has its outcome. -/
inductive Leaves (env : Env) (q : Serving) : Reader → Prop
  | idle : Leaves env q .idle
  | uploading (h : q.req.hasBody = true) : Leaves env q (.uploading (Upload.open q.req.events))
  | parsing {cfg : MultipartConfig} {b : String} (hcfg : q.leaf.multipart = some cfg)
      (hb : boundary env q.req = some b) :
      Leaves env q (.parsing cfg (env.multer q.req.events b).complete
        (FormIo.open (env.multer q.req.events b)) q.req.events)

/-- `dispatch` has the outcome of `handleInner` at once, or awaits the body first. -/
theorem dispatch_cases (env : Env) (q : Serving) :
    (∃ reader, Leaves env q reader ∧
        q.dispatch env = q.settled reader (handleInner env q.leaf q.req q.lookup)) ∨
      (q.dispatch env = q.readBy (.buffering [] q.req.events) ∧
        handleInner env q.leaf q.req q.lookup =
          q.settle env (bufferBody env.bodyLimit env.readTimeout [] q.req.events)) := by
  unfold Serving.dispatch
  split
  case isTrue hlength =>
    exact Or.inl ⟨.idle, .idle, by rw [handleInner, if_pos hlength]⟩
  case isFalse hlength =>
    rw [Bool.not_eq_true] at hlength
    split
    case h_1 hit hget =>
      refine Or.inl ⟨.idle, .idle, ?_⟩
      simp only [handleInner, hlength, Dispatch.dispatch, hget]
      rfl
    case h_2 hget =>
      split
      case h_1 cfg hmp =>
        have hbodies : bufferBodies env q.leaf q.req = .ok (none, none) := by
          simp [bufferBodies, bufferForSchema, bufferForCache, cacheable, hmp]
        split
        case h_1 hb =>
          refine Or.inl ⟨.idle, .idle, ?_⟩
          simp only [handleInner, hlength, Dispatch.dispatch, hget, multipartEvents, hmp, hb]
          rfl
        case h_2 b hb =>
          refine Or.inl ⟨_, .parsing hmp hb, ?_⟩
          rw [handleInner_answer hlength hget _ hbodies]
          rw [multipartEvents, hmp, hb]
      case h_2 hmp =>
        have hform : multipartEvents env q.leaf q.req = .ok none := by
          rw [multipartEvents, hmp]
        split
        case isTrue hbuffer =>
          exact Or.inr ⟨rfl, handleInner_settle hlength hget hmp hbuffer⟩
        case isFalse hbuffer =>
          have hbodies : bufferBodies env q.leaf q.req = .ok (none, none) := by
            rw [bufferBodies, if_neg hbuffer]
          rw [handleInner_answer hlength hget hform hbodies]
          split
          case h_1 handoff hanswer =>
            rw [hanswer]
            refine Or.inl ⟨_, ?_, rfl⟩
            split
            case isTrue hhas => exact .uploading hhas
            case isFalse => exact .idle
          case h_2 => exact Or.inl ⟨.idle, .idle, rfl⟩

/-- A turn of the loop of `buffer_body` goes on, or it is the last. -/
theorem bufferFrame_cases (buf : Bytes) (events : List BodyEvent) :
    (∃ buf' events', (q.bufferFrame env m buf events).2 = q.readBy (.buffering buf' events') ∧
        bufferBody env.bodyLimit env.readTimeout buf' events' =
          bufferBody env.bodyLimit env.readTimeout buf events) ∨
      (q.bufferFrame env m buf events).2 =
        q.settled .idle (q.settle env (bufferBody env.bodyLimit env.readTimeout buf events)) := by
  cases events with
  | nil => exact Or.inr rfl
  | cons e events =>
      cases e with
      | data b =>
          rw [Serving.bufferFrame, bufferBody]
          split
          case isTrue => exact Or.inr rfl
          case isFalse => exact Or.inl ⟨_, _, rfl, rfl⟩
      | trailers => exact Or.inl ⟨_, _, rfl, rfl⟩
      | error => exact Or.inr rfl
      | stall =>
          rw [Serving.bufferFrame, bufferBody]
          split
          case isTrue => exact Or.inr rfl
          case isFalse => exact Or.inl ⟨_, _, rfl, rfl⟩

/-- What is decided of a request is what `handleInner` computes, and so is what will be. -/
structure Faithful (env : Env) (q : Serving) : Prop where
  outcome : ∀ o ∈ q.outcome, o = handleInner env q.leaf q.req q.lookup
  buffering : ∀ buf events, q.reader = .buffering buf events →
    handleInner env q.leaf q.req q.lookup =
      q.settle env (bufferBody env.bodyLimit env.readTimeout buf events)

theorem faithful_arrived (leaf : Leaf) (req : Request) (lookup : String → Option Cache.Hit) :
    Faithful env (.arrived leaf req lookup) where
  outcome := fun _ ho => by cases ho
  buffering := fun _ _ hreader => by cases hreader

theorem Faithful.readBy (hq : Faithful env q) {reader : Reader}
    (h : ∀ buf events, reader ≠ .buffering buf events) : Faithful env (q.readBy reader) where
  outcome := hq.outcome
  buffering := fun buf events hreader => absurd hreader (h buf events)

theorem faithful_settled {reader : Reader}
    (h : ∀ buf events, reader ≠ .buffering buf events) :
    Faithful env (q.settled reader (handleInner env q.leaf q.req q.lookup)) where
  outcome := fun _ ho => (Option.some.inj ho).symm
  buffering := fun buf events hreader => absurd hreader (h buf events)

theorem act_faithful (hq : Faithful env q) (h : q.act env m a = some (m', r)) :
    Faithful env r := by
  cases acts_of_act h with
  | dispatch =>
      rcases dispatch_cases env q with ⟨reader, hreader, hr⟩ | ⟨hr, hsettle⟩
      · rw [hr]
        refine faithful_settled fun buf events h => ?_
        cases hreader <;> cases h
      · rw [hr]
        refine ⟨hq.outcome, fun buf events hreader => ?_⟩
        obtain ⟨rfl, rfl⟩ := Reader.buffering.inj hreader
        exact hsettle
  | @frame buf events hreader =>
      have hsettle := hq.buffering buf events hreader
      rcases bufferFrame_cases buf events with ⟨buf', events', hr, hsame⟩ | hr
      · rw [hr]
        refine ⟨hq.outcome, fun buf'' events'' hreader' => ?_⟩
        obtain ⟨rfl, rfl⟩ := Reader.buffering.inj hreader'
        exact hsettle.trans (congrArg (q.settle env) hsame.symm)
      · rw [hr, ← hsettle]
        exact faithful_settled fun _ _ h => by cases h
  | drop | upload | pull | form => exact hq.readBy fun _ _ h => by cases h

end Outcome

/-! ## Every run -/

section Runs

variable {env : Env} {s t : State} {l : Label} {ls : List Label}

/-- The counter has the bytes that no parser took, up to its width. -/
structure Exact (s : State) : Prop where
  parsed_le : s.parsed ≤ s.readOff
  total : s.metrics.requestBodyBytesTotal = (s.readOff - s.parsed) % 2 ^ 64

theorem exact_init : Exact State.init := ⟨Nat.le_refl 0, rfl⟩

/-- What an act does to the counts of the server. -/
theorem step_act {i : Nat} {a : Act} (h : step env s (.act i a) = some t) :
    ∃ q r, s.reqs[i]? = some q ∧ q.act env s.metrics a = some (t.metrics, r) ∧
      t.readOff = s.readOff + q.takes a ∧
      t.parsed = s.parsed + (if a = .pull then q.takes a else 0) ∧
      t.reqs = s.reqs.set i r := by
  obtain ⟨q, hq, h⟩ := Option.bind_eq_some_iff.1 h
  obtain ⟨⟨m, r⟩, hr, rfl⟩ := Option.map_eq_some_iff.1 h
  exact ⟨q, r, hq, hr, rfl, rfl, rfl⟩

/-- The requests of a server after a step: one is new, or one has acted. -/
theorem mem_step {r : Serving} (h : step env s l = some t) (hr : r ∈ t.reqs) :
    r ∈ s.reqs ∨ (∃ leaf req lookup, l = .accept leaf req lookup ∧
        r = .arrived leaf req lookup) ∨
      ∃ i a q, l = .act i a ∧ q ∈ s.reqs ∧ q.act env s.metrics a = some (t.metrics, r) := by
  cases l with
  | accept leaf req lookup =>
      obtain rfl := Option.some.inj h
      rcases List.mem_append.1 hr with hr | hr
      · exact Or.inl hr
      · exact Or.inr (Or.inl ⟨leaf, req, lookup, rfl, List.mem_singleton.1 hr⟩)
  | act i a =>
      obtain ⟨q, r', hq, hact, -, -, hreqs⟩ := step_act h
      rw [hreqs] at hr
      rcases List.mem_or_eq_of_mem_set hr with hr | rfl
      · exact Or.inl hr
      · exact Or.inr (Or.inr ⟨i, a, q, rfl, List.mem_of_getElem? hq, hact⟩)

/-- In every run, what has been decided of a request is what `handleInner` computes. -/
theorem run_outcome (hrun : run (step env) State.init ls = some t) :
    ∀ q ∈ t.reqs, ∀ o ∈ q.outcome, o = handleInner env q.leaf q.req q.lookup := by
  have hall : ∀ q ∈ t.reqs, Faithful env q := by
    refine run_invariant (I := fun s => ∀ q ∈ s.reqs, Faithful env q) ?_
      (List.forall_mem_nil _) hrun
    intro s l t hs h r hr
    rcases mem_step h hr with hr | ⟨leaf, req, lookup, -, rfl⟩ | ⟨i, a, q, -, hq, hact⟩
    · exact hs r hr
    · exact faithful_arrived leaf req lookup
    · exact act_faithful (hs q hq) hact
  exact fun q hq => (hall q hq).outcome

theorem step_exact (hs : Exact s) (h : step env s l = some t) : Exact t := by
  cases l with
  | accept leaf req lookup =>
      obtain rfl := Option.some.inj h
      exact ⟨hs.parsed_le, hs.total⟩
  | act i a =>
      obtain ⟨q, r, -, hact, hread, hparsed, -⟩ := step_act h
      have hle := hs.parsed_le
      have hm := act_metrics hact
      by_cases hpull : a = .pull
      · rw [if_pos hpull] at hm hparsed
        refine ⟨by omega, ?_⟩
        rw [hm, hs.total, hread, hparsed, Nat.add_sub_add_right]
      · rw [if_neg hpull] at hm hparsed
        refine ⟨by omega, ?_⟩
        rw [hm, total_addRequestBytes hs.total, hread, hparsed, Nat.add_zero,
          Nat.sub_add_comm hle]

/-- In every state of every run, the counter has the bytes that `buffer_body` and
`read_body_task` have read, up to its width. -/
theorem run_exact (hrun : run (step env) State.init ls = some t) : Exact t :=
  run_invariant (fun _ _ _ => step_exact) exact_init hrun

theorem accounted_iff (hs : Exact s) : Accounted s ↔ s.parsed = 0 ∧ s.readOff < 2 ^ 64 := by
  have hle := hs.parsed_le
  rw [Accounted, hs.total]
  constructor
  · intro heq
    have hmod := Nat.mod_le (s.readOff - s.parsed) (2 ^ 64)
    have hlt := Nat.mod_lt (s.readOff - s.parsed) (Nat.two_pow_pos 64)
    omega
  · rintro ⟨hparsed, hlt⟩
    rw [hparsed, Nat.sub_zero, Nat.mod_eq_of_lt hlt]

theorem step_accounted (hs : Exact s) (hacc : Accounted s) (h : step env s l = some t) :
    Accounted t ↔ Counts s l := by
  obtain ⟨hparsed, hlt⟩ := (accounted_iff hs).1 hacc
  rw [accounted_iff (step_exact hs h)]
  cases l with
  | accept leaf req lookup =>
      obtain rfl := Option.some.inj h
      exact iff_of_true ⟨hparsed, hlt⟩ trivial
  | act i a =>
      obtain ⟨q, r, hq, -, hread, hparsed', -⟩ := step_act h
      rw [hread, hparsed', hparsed, Counts, hq]
      by_cases hpull : a = .pull
      · simp [hpull]
      · simp [hpull]

/-! ### Runs without forms -/

/-- `dispatch` does not hand the body to `parse_task`. -/
def Formless (env : Env) (leaf : Leaf) (req : Request) : Prop :=
  leaf.multipart = none ∨ boundary env req = none

/-- No request of the run is for a form. -/
def AllFormless (env : Env) (ls : List Label) : Prop :=
  ∀ leaf req lookup, Label.accept leaf req lookup ∈ ls → Formless env leaf req

def Reader.isForm : Reader → Bool
  | .parsing .. => true
  | _ => false

/-- No form is parsed for the request. -/
structure Plain (env : Env) (q : Serving) : Prop where
  formless : Formless env q.leaf q.req
  unparsed : q.reader.isForm = false

theorem plain_arrived {leaf : Leaf} {req : Request} (h : Formless env leaf req)
    (lookup : String → Option Cache.Hit) : Plain env (.arrived leaf req lookup) where
  formless := h
  unparsed := rfl

theorem Plain.readBy {q : Serving} (hq : Plain env q) {reader : Reader}
    (h : reader.isForm = false) : Plain env (q.readBy reader) where
  formless := hq.formless
  unparsed := h

theorem Plain.settled {q : Serving} (hq : Plain env q) {reader : Reader}
    (h : reader.isForm = false) (o : Outcome) : Plain env (q.settled reader o) where
  formless := hq.formless
  unparsed := h

theorem dispatch_plain {q : Serving} (hq : Plain env q) : Plain env (q.dispatch env) := by
  rcases dispatch_cases env q with ⟨reader, hreader, hr⟩ | ⟨hr, -⟩
  · rw [hr]
    refine hq.settled ?_ _
    cases hreader with
    | idle | uploading => rfl
    | parsing hcfg hb =>
        rcases hq.formless with hnone | hnone
        · cases hcfg.symm.trans hnone
        · cases hb.symm.trans hnone
  · rw [hr]
    exact hq.readBy rfl

theorem act_plain {m m' : Metrics} {q r : Serving} {a : Act} (hq : Plain env q)
    (h : q.act env m a = some (m', r)) : Plain env r ∧ a ≠ .pull := by
  cases acts_of_act h with
  | dispatch => exact ⟨dispatch_plain hq, nofun⟩
  | @frame buf events =>
      refine ⟨?_, nofun⟩
      rcases bufferFrame_cases buf events with ⟨buf', events', hr, -⟩ | hr
      · rw [hr]
        exact hq.readBy rfl
      · rw [hr]
        exact hq.settled rfl _
  | drop | upload => exact ⟨hq.readBy rfl, nofun⟩
  | pull hreader | form hreader =>
      have hno := hq.unparsed
      rw [hreader] at hno
      cases hno

/-- In a run without forms no parser takes anything. -/
theorem run_plain (hrun : run (step env) State.init ls = some t) :
    AllFormless env ls → t.parsed = 0 ∧ ∀ q ∈ t.reqs, Plain env q := by
  refine run_history (J := fun t ls => AllFormless env ls → t.parsed = 0 ∧ ∀ q ∈ t.reqs, Plain env q)
    (fun _ => ⟨rfl, List.forall_mem_nil _⟩) ?_ hrun
  intro s ls l t ih h hplain
  obtain ⟨hparsed, hall⟩ := ih fun leaf req lookup hmem =>
    hplain leaf req lookup (List.mem_append_left _ hmem)
  constructor
  · cases l with
    | accept leaf req lookup =>
        obtain rfl := Option.some.inj h
        exact hparsed
    | act i a =>
        obtain ⟨q, r, hq, hact, -, hparsed', -⟩ := step_act h
        rw [hparsed', hparsed, if_neg (act_plain (hall q (List.mem_of_getElem? hq)) hact).2]
  · intro r hr
    rcases mem_step h hr with hr | ⟨leaf, req, lookup, rfl, rfl⟩ | ⟨i, a, q, -, hq, hact⟩
    · exact hall r hr
    · exact plain_arrived
        (hplain leaf req lookup (List.mem_append_right _ (List.mem_singleton_self _))) lookup
    · exact (act_plain (hall q hq) hact).1

/-- Where no request is for a form, the counter is complete up to its width. -/
theorem complete_of_plain (hrun : run (step env) State.init ls = some t)
    (hplain : AllFormless env ls) (hfits : t.readOff < 2 ^ 64) : Accounted t :=
  (accounted_iff (run_exact hrun)).2 ⟨(run_plain hrun hplain).1, hfits⟩

/-! ### When the counter is complete -/

/--
The counter is the number of body bytes read throughout a run exactly when no parser of a
form takes a frame with bytes in it, and the bytes fit the counter.
-/
theorem complete_iff (env : Env) (ls : List Label) :
    Throughout (step env) Accounted State.init ls ↔
      Along (step env) Counts State.init ls :=
  throughout_iff_along (I := Exact)
    (fun _ _ _ hs hacc h => ⟨step_exact hs h, step_accounted hs hacc h⟩)
    exact_init rfl ls

end Runs

/-- A form of 64 bytes, read by the parser in one frame. -/
theorem form_uncounted :
    ¬ ∀ (env : Env) (ls : List Label), Throughout (step env) Accounted State.init ls := by
  intro hall
  obtain ⟨t, hrun, hread, htotal⟩ : ∃ t,
      run (step sampleEnv) State.init
          [.accept formLeaf (post formHeader [.data formBody]) (fun _ => none),
            .act 0 .dispatch, .act 0 .pull] = some t ∧
        t.readOff = 64 ∧ t.metrics.requestBodyBytesTotal = 0 :=
    ⟨_, rfl, rfl, rfl⟩
  have haccounted := hall sampleEnv _ _ t List.prefix_rfl hrun
  rw [Accounted, hread, htotal] at haccounted
  cases haccounted

end RequestBytes
end OxideHttp
