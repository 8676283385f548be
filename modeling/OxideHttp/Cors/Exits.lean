import OxideHttp.Cors
import OxideHttp.Overload
import OxideHttp.Reply.Framing

/-!
# The exits of `handle` (`src/server.rs`: `handle`, `handle_inner`, `route_and_dispatch`,
`dispatch`)

Every way in which a request gets its response.  `handle_inner` attaches the CORS headers,
to what `route_and_dispatch` returns and to its own 413; a preflight request is answered
with headers of its own.

Result: `allowOrigin_once_iff`, when a response to an origin that is allowed carries
`access-control-allow-origin` once.
-/

namespace OxideHttp
namespace Cors

open Body Dispatch Reply Routing Schema

/-- `HealthPaths`. -/
structure HealthPaths where
  health : String
  ready : String
  metrics : String

/-- The configuration of a server. -/
structure Server (M : Matchit) where
  env : Env
  router : Router M
  paramsOf : ParamsOf
  /-- schema, multipart configuration and cache, by leaf id -/
  leaves : Nat → Leaf
  hasNotFound : Bool
  requestIdHeader : String
  cors : Option Policy
  /-- the probes have a port of their own -/
  adminPort : Bool
  healthPaths : HealthPaths
  validHeader : String × String → Bool
  /-- `errors_body` -/
  errorsBody : List Issue → String

/-- A request as hyper hands it over. -/
structure Incoming where
  token : Text
  path : Text
  queryString : Option String
  header : HeaderMap
  events : List BodyEvent
  methodLine : '\n' ∉ upper token
  pathLine : '\n' ∉ path
  queryLine : Cache.OneLine (queryString.getD "")

/-- What the request meets: the limiter, the probes, the cache, JS, and a fresh id. -/
structure World where
  slot : Overload.Slot
  isReady : Bool
  reason : String
  metrics : String
  lookup : String → Option Cache.Hit
  /-- the answer of the dispatcher, `none` when it is gone -/
  js : Handoff → Option Cache.JsResponse
  uuid : String

/-- `header_str`. -/
def headerStr (h : HeaderMap) (name : String) : Option String := (h.get name).bind toStr

/-- The leaf of the handler for what is not found. -/
def bareLeaf : Leaf := { schema := none, multipart := none, cache := none, params := fun _ => [] }

section Handle

variable {M : Matchit} (s : Server M) (w : World) (req : Incoming)

/-- `admin_response`. -/
def adminResponse : Option Response :=
  let method := upper req.token
  let path := String.ofList req.path
  let p := s.healthPaths
  let text := [("content-type", "text/plain; charset=utf-8"), ("cache-control", "no-store")]
  if method ≠ getMethod ∧ method ≠ headMethod then none
  else if p.health ≠ "" ∧ path = p.health then
    some (ownResponse s.validHeader 200 text (full "ok"))
  else if p.ready ≠ "" ∧ path = p.ready then
    some (ownResponse s.validHeader (if w.isReady then 200 else 503) text (full w.reason))
  else if p.metrics ≠ "" ∧ path = p.metrics then
    some (ownResponse s.validHeader 200
      [("content-type", "text/plain; version=0.0.4; charset=utf-8"), ("cache-control", "no-store")]
      (full w.metrics))
  else none

/-- The answer of a probe, where the probes share the port. -/
def probe : Option Response := if s.adminPort then none else adminResponse s w req

/-- `overloaded_response`. -/
def overloadedResponse (retryAfter : Nat) : Response :=
  ownResponse s.validHeader 503
    [("retry-after", toString retryAfter), ("content-type", "text/plain; charset=utf-8")]
    (full "Service Unavailable")

/-- `request_id`. -/
def requestId : String :=
  let name := s.env.lowercase s.requestIdHeader
  (((collectHeaders req.header).find? fun kv => kv.key == name).bind fun kv =>
    let v := trim kv.value.toList
    if v = [] then none else some (String.ofList v)).getD w.uuid

/-- The request as `dispatch` gets it. -/
def Incoming.request (head : Bool) : Request where
  method := String.ofList (upper req.token)
  head := head
  path := String.ofList req.path
  queryString := req.queryString
  header := req.header
  events := req.events
  methodLine := by rw [Cache.OneLine, String.toList_ofList]; exact req.methodLine
  pathLine := by rw [Cache.OneLine, String.toList_ofList]; exact req.pathLine
  queryLine := req.queryLine

/-- The text of a refusal; a body that was read whole and is refused with 400 did not
decode. -/
def refusalText (status : Nat) : String :=
  if status = 413 then "Payload Too Large"
  else if status = 408 then "Request Timeout"
  else if status = 415 then "Unsupported Media Type"
  else match bufferBody s.env.bodyLimit s.env.readTimeout [] req.events with
    | .ok _ => "Invalid compressed body"
    | .error _ => "Bad Request"

def leafOf (leaf : Int) : Leaf := if 0 ≤ leaf then s.leaves leaf.toNat else bareLeaf

/-- The outcome of `dispatch` before the response is built. -/
def outcome (leaf : Int) (head : Bool) : Outcome :=
  Dispatch.dispatch s.env (leafOf s leaf) (req.request head) w.lookup

/-- The responses of `dispatch`. -/
def dispatchResponse (leaf : Int) (head : Bool) : Response :=
  match outcome s w req leaf head with
  | .refused status => statusText status (refusalText s req status)
  | .invalid issues =>
      ownResponse s.validHeader 400 [("content-type", "application/json; charset=utf-8")]
        (full (s.errorsBody issues))
  | .cached hit =>
      ofServed (cachedResponse s.validHeader s.requestIdHeader (requestId s w req) head hit)
  | .toJs handoff =>
      match w.js handoff with
      | some res => buildResponse s.env.lowercase s.validHeader res head
      | none => statusText 500 "Internal Server Error"

/-- `route_and_dispatch`. -/
def routeResponse : Response :=
  match s.router.routeAndDispatch s.paramsOf s.hasNotFound (upper req.token) req.path with
  | .dispatched leaf _ head => dispatchResponse s w req leaf head
  | .notFound => statusText 404 "Not Found"
  | .options allow => ownResponse s.validHeader 204 [("allow", String.ofList allow)] empty
  | .notAllowed allow =>
      ownResponse s.validHeader 405 [("allow", String.ofList allow)] (full "Method Not Allowed")

def origin : Option String := headerStr req.header "origin"

/-- A preflight request, where there is a policy. -/
def isPreflight : Bool :=
  upper req.token == optionsMethod && req.header.containsKey "access-control-request-method"

/-- The declared length is over the limit. -/
def declaredOver : Bool := (contentLength req.header).any (overLimit s.env.bodyLimit)

/-- `handle_inner`. -/
def handleInner : Response :=
  match s.cors.filter fun _ => isPreflight req with
  | some c =>
      preflightResponse s.validHeader c (origin req)
        (headerStr req.header "access-control-request-headers")
  | none =>
      if declaredOver s req then
        applyCors s.validHeader s.cors (origin req) (statusText 413 "Payload Too Large")
      else applyCors s.validHeader s.cors (origin req) (routeResponse s w req)

/-- `handle`; without a limiter every request gets a slot. -/
def handle : Response :=
  match probe s w req with
  | some res => res
  | none =>
      match w.slot with
      | .acquired => handleInner s w req
      | .rejected retryAfter => overloadedResponse s retryAfter

end Handle

/-! ## What the http library takes -/

/-- A character of a header value that `to_str` lets through. -/
def visibleChar (ch : Char) : Bool := (32 ≤ ch.toNat && ch.toNat < 127) || ch == '\t'

/-- `HeaderName` takes up to 65535 letters in lower case and hyphens, `HeaderValue` visible
ASCII. -/
def TakesVisible (validHeader : String × String → Bool) : Prop :=
  ∀ name value : String, name ≠ "" → name.length ≤ 65535 →
    (∀ ch ∈ name.toList, ch.isLower = true ∨ ch = '-') →
      (∀ ch ∈ value.toList, visibleChar ch = true) → validHeader (name, value) = true

set_option maxRecDepth 2000 in
theorem visibleChar_ofNat : ∀ n < 256, isVisibleAscii (UInt8.ofNat n) = true →
    visibleChar (Char.ofNat n) = true := by decide

theorem visible_of_toStr {v : Bytes} {t : String} (h : toStr v = some t) :
    ∀ ch ∈ t.toList, visibleChar ch = true := by
  simp only [toStr, Option.ite_none_right_eq_some, List.all_eq_true, Option.some.injEq] at h
  obtain ⟨hvisible, rfl⟩ := h
  intro ch hch
  rw [String.toList_ofList] at hch
  obtain ⟨b, hb, rfl⟩ := List.mem_map.1 hch
  exact visibleChar_ofNat b.toNat b.toNat_lt (by rw [UInt8.ofNat_toNat]; exact hvisible b hb)

section Once

variable {c : Policy} {o : Option String} {v : String} {validHeader : String × String → Bool}

/-- The value for an origin that is allowed goes into a header. -/
theorem takes_allowOrigin (htakes : TakesVisible validHeader) {h : HeaderMap}
    (hv : c.resolveOrigin (headerStr h "origin") = some v) :
    validHeader (allowOrigin, v) = true := by
  have hname : (allowOrigin.toList.all fun ch => ch.isLower || ch == '-') = true := by decide
  refine htakes _ _ (by decide) (by decide)
    (fun ch hch => by simpa using List.all_eq_true.1 hname ch hch) ?_
  rcases resolveOrigin_eq_some.1 hv with ⟨-, -, rfl⟩ | ⟨-, horigin, -⟩
  · exact List.all_eq_true.1 (by decide)
  · obtain ⟨bytes, -, hstr⟩ := Option.bind_eq_some_iff.1 horigin
    exact visible_of_toStr hstr

theorem valuesOf_actual (hv : c.resolveOrigin o = some v)
    (hvalid : validHeader (allowOrigin, v) = true) :
    valuesOf allowOrigin ((c.actual o).filter validHeader) = [v] := by
  have hfilter : ∀ hs : List (String × String), (∀ kv ∈ hs, kv.1 ≠ allowOrigin) →
      valuesOf allowOrigin (hs.filter validHeader) = [] := by
    intro hs hno
    rw [valuesOf_eq_nil]
    exact fun kv hkv => hno kv (List.mem_filter.1 hkv).1
  have hrest : ∃ rest, c.actual o = (allowOrigin, v) :: rest ∧
      ∀ kv ∈ rest, kv.1 ≠ allowOrigin := by
    rw [Policy.actual, hv]
    refine ⟨_, rfl, ?_⟩
    cases c.anyOrigin <;> cases c.credentials <;> cases c.exposedHeaders <;> simp [allowOrigin]
  obtain ⟨rest, hactual, hno⟩ := hrest
  rw [hactual, List.filter_cons_of_pos hvalid]
  have hnil := hfilter rest hno
  rw [← List.singleton_append, valuesOf_append, hnil]
  simp [valuesOf]

/-- `apply_cors` adds the one value to those that are there. -/
theorem valuesOf_applyCors (hv : c.resolveOrigin o = some v)
    (hvalid : validHeader (allowOrigin, v) = true) (r : Response) :
    valuesOf allowOrigin (applyCors validHeader (some c) o r).headers =
      valuesOf allowOrigin r.headers ++ [v] := by
  rw [applyCors, valuesOf_append, valuesOf_actual hv hvalid]

theorem valuesOf_preflight (hv : c.resolveOrigin o = some v) {reqHeaders : Option String}
    {headers : List (String × String)} (h : c.preflight o reqHeaders = some headers) :
    valuesOf allowOrigin (preflightResponse validHeader c o reqHeaders).headers =
      if headers.all validHeader = true then [v] else [] := by
  have hone : valuesOf allowOrigin headers = [v] := by
    obtain ⟨w, hw, rfl⟩ := Option.map_eq_some_iff.1 h
    obtain rfl := Option.some.inj (hv.symm.trans hw)
    cases c.anyOrigin <;> cases c.credentials <;> cases c.maxAge <;>
      cases c.allowedHeaders.or reqHeaders <;> simp [valuesOf, allowOrigin]
  rw [preflightResponse, h]
  simp only [ownResponse, builder]
  by_cases hall : headers.all validHeader = true
  · simp [hall, builderOr500, hone]
  · simp [hall, builderOr500, statusText, valuesOf]

theorem valuesOf_own (status : Nat) {headers : List (String × String)} (body : ResBody)
    (hno : ∀ kv ∈ headers, kv.1 ≠ allowOrigin) :
    valuesOf allowOrigin (ownResponse validHeader status headers body).headers = [] := by
  rw [ownResponse, builder]
  split
  · rw [valuesOf_eq_nil]
    simpa [builderOr500] using hno
  · rfl

/-- The length that HEAD gets is no other header. -/
theorem valuesOf_withLength {name : String} (hname : name ≠ "content-length")
    (headers : List (String × String)) (len : Nat) :
    valuesOf name (withLength headers len) = valuesOf name headers := by
  rw [withLength]
  split
  · rfl
  · rw [valuesOf_append]
    simp [valuesOf, hname.symm]

/-- A response keeps the headers of the handler, or is a 500. -/
theorem valuesOf_buildResponse {name : String} (hname : name ≠ "content-length")
    {lowercase : String → String} (res : Cache.JsResponse) (head : Bool) :
    valuesOf name (buildResponse lowercase validHeader res head).headers =
      ((started lowercase validHeader res).map fun r => valuesOf name r.2).getD [] := by
  cases hb : started lowercase validHeader res with
  | none =>
      simp only [buildResponse, hb, Option.map_none, ite_self, builderOr500]
      rfl
  | some r =>
      cases head <;> cases hs : res.streamed.getD false <;>
        simp [buildResponse, hb, hs, builderOr500, valuesOf_withLength hname]

theorem valuesOf_cachedResponse {name : String} (hname : name ≠ "content-length")
    (requestIdHeader id : String) (head : Bool) (hit : Cache.Hit) :
    valuesOf name (ofServed (cachedResponse validHeader requestIdHeader id head hit)).headers =
      let headers := hit.headers ++ [(requestIdHeader, id), ("x-cache", "hit")]
      if headers.all validHeader = true then valuesOf name headers else [] := by
  have hlen := valuesOf_withLength hname
    (hit.headers ++ [(requestIdHeader, id), ("x-cache", "hit")]) hit.body.length
  dsimp only
  by_cases hvalid : (hit.headers ++ [(requestIdHeader, id), ("x-cache", "hit")]).all
      validHeader = true
  · rw [if_pos hvalid, cachedResponse, if_neg (by simp only [hvalid]; decide)]
    cases head with
    | false => rfl
    | true => exact hlen
  · rw [if_neg hvalid, cachedResponse, if_pos (by simpa only [Bool.not_eq_true',
      Bool.not_eq_true] using hvalid)]
    rfl

end Once

section Condition

variable {M : Matchit} (s : Server M) (w : World) (req : Incoming)

/-- The response of the handler, or the entry that is served in its place, has an
`access-control-allow-origin` of its own, and the builder takes it. -/
def SetsOrigin (leaf : Int) (head : Bool) : Prop :=
  match outcome s w req leaf head with
  | .cached hit =>
      let headers :=
        hit.headers ++ [(s.requestIdHeader, requestId s w req), ("x-cache", "hit")]
      headers.all s.validHeader = true ∧ ∃ kv ∈ headers, kv.1 = allowOrigin
  | .toJs handoff =>
      ∃ res, w.js handoff = some res ∧
        (started s.env.lowercase s.validHeader res).isSome = true ∧
        ∃ kv ∈ res.headers.getD [], s.env.lowercase kv.key = allowOrigin
  | _ => False

/-- The request is dispatched, and what answers it sets the header itself. -/
def OwnOrigin : Prop :=
  ∃ leaf params head,
    s.router.routeAndDispatch s.paramsOf s.hasNotFound (upper req.token) req.path =
        .dispatched leaf params head ∧
      SetsOrigin s w req leaf head

theorem dispatchResponse_origin (leaf : Int) (head : Bool) :
    valuesOf allowOrigin (dispatchResponse s w req leaf head).headers = [] ↔
      ¬ SetsOrigin s w req leaf head := by
  have hname : allowOrigin ≠ "content-length" := by decide
  rw [dispatchResponse, SetsOrigin]
  cases outcome s w req leaf head with
  | refused status => exact iff_of_true rfl not_false
  | invalid issues =>
      refine iff_of_true (valuesOf_own _ _ ?_) not_false
      simp [allowOrigin]
  | cached hit =>
      dsimp only
      rw [valuesOf_cachedResponse hname]
      dsimp only
      by_cases hall : (hit.headers ++ [(s.requestIdHeader, requestId s w req),
          ("x-cache", "hit")]).all s.validHeader = true
      · rw [if_pos hall, valuesOf_eq_nil, and_iff_right hall]
        simp only [not_exists, not_and, ne_eq]
      · rw [if_neg hall]
        exact iff_of_true rfl fun h => hall h.1
  | toJs handoff =>
      dsimp only
      cases w.js handoff with
      | none => exact iff_of_true rfl (by simp)
      | some res =>
          dsimp only
          rw [valuesOf_buildResponse hname]
          cases hb : started s.env.lowercase s.validHeader res with
          | none => exact iff_of_true rfl (by simp [hb])
          | some r =>
              rw [Option.map_some, Option.getD_some, valuesOf_eq_nil, started_headers hb]
              simp [hb]

theorem routeResponse_origin :
    valuesOf allowOrigin (routeResponse s w req).headers = [] ↔ ¬ OwnOrigin s w req := by
  rw [routeResponse, OwnOrigin]
  cases hanswer : s.router.routeAndDispatch s.paramsOf s.hasNotFound (upper req.token)
      req.path with
  | dispatched leaf params head =>
      dsimp only
      rw [dispatchResponse_origin]
      refine not_congr ⟨fun h => ⟨leaf, params, head, rfl, h⟩, ?_⟩
      rintro ⟨leaf', params', head', heq, h⟩
      obtain ⟨rfl, -, rfl⟩ := Answer.dispatched.inj heq
      exact h
  | notFound => exact iff_of_true rfl (by simp)
  | options allow => exact iff_of_true (valuesOf_own _ _ (by simp [allowOrigin])) (by simp)
  | notAllowed allow => exact iff_of_true (valuesOf_own _ _ (by simp [allowOrigin])) (by simp)

/-- The response to a request from an allowed origin carries its value once, just when the
request is not shed, a preflight answer is accepted as configured, and what answers any
other request does not set the header itself. -/
theorem allowOrigin_once_iff (htakes : TakesVisible s.validHeader) {c : Policy} {v : String}
    (hcors : s.cors = some c) (hallowed : c.resolveOrigin (origin req) = some v)
    (hprobe : probe s w req = none) :
    valuesOf allowOrigin (handle s w req).headers = [v] ↔
      w.slot = .acquired ∧
        (isPreflight req = true → ∀ headers,
          c.preflight (origin req) (headerStr req.header "access-control-request-headers") =
            some headers → headers.all s.validHeader = true) ∧
        (isPreflight req = false → declaredOver s req = false → ¬ OwnOrigin s w req) := by
  have hvalid := takes_allowOrigin htakes hallowed
  rw [handle, hprobe]
  cases hslot : w.slot with
  | rejected retryAfter =>
      have hnil : valuesOf allowOrigin (overloadedResponse s retryAfter).headers = [] :=
        valuesOf_own _ _ (by simp [allowOrigin])
      dsimp only
      rw [hnil]
      exact iff_of_false (by simp) (by simp)
  | acquired =>
      dsimp only
      rw [handleInner, hcors]
      cases hpre : isPreflight req with
      | true =>
          obtain ⟨headers, hheaders⟩ : ∃ headers, c.preflight (origin req)
              (headerStr req.header "access-control-request-headers") = some headers :=
            Option.ne_none_iff_exists'.1 fun hnone => by
              rw [preflight_eq_none, hallowed] at hnone
              cases hnone
          simp only [Option.filter_some, if_true]
          rw [valuesOf_preflight hallowed hheaders, hheaders]
          by_cases hall : headers.all s.validHeader = true
          · rw [if_pos hall]
            refine iff_of_true rfl ⟨trivial, fun _ hs heq => ?_, by simp⟩
            exact Option.some.inj heq ▸ hall
          · rw [if_neg hall]
            exact iff_of_false (by simp) fun h => hall (h.2.1 trivial headers rfl)
      | false =>
          simp only [Option.filter_some, Bool.false_eq_true, if_false]
          cases hover : declaredOver s req with
          | true =>
              rw [if_pos rfl, valuesOf_applyCors hallowed hvalid]
              simp [statusText, valuesOf]
          | false =>
              rw [if_neg (by simp), valuesOf_applyCors hallowed hvalid]
              simp [routeResponse_origin]

end Condition

/-! ## A server with one origin -/

/-- `get('/x')`, `all('/x')` and `get('/y')` behind the policy of one origin. -/
def listedServer : Server firstMatch where
  env := sampleEnv
  router := mixedRouter
  paramsOf := fun _ _ => []
  leaves := fun _ => plainLeaf
  hasNotFound := false
  requestIdHeader := "x-request-id"
  cors := some listed
  adminPort := false
  healthPaths := ⟨"/healthz", "/readyz", "/metrics"⟩
  validHeader := fun _ => true
  errorsBody := fun _ => ""

/-- JS answers each request with `c.text('hello')`. -/
def greeting (slot : Overload.Slot) : World where
  slot := slot
  isReady := true
  reason := "ready"
  metrics := ""
  lookup := fun _ => none
  js := fun _ => some helloResponse
  uuid := "7"

theorem oneLine_get : '\n' ∉ upper "GET".toList := by decide

theorem oneLine_y : '\n' ∉ "/y".toList := by decide

theorem oneLine_empty : Cache.OneLine "" := by decide

/-- `GET /y` from `https://ok.com`. -/
def fromListed : Incoming where
  token := "GET".toList
  path := "/y".toList
  queryString := none
  header := [("origin", "https://ok.com".toUTF8.toList)]
  events := []
  methodLine := oneLine_get
  pathLine := oneLine_y
  queryLine := oneLine_empty

theorem origin_fromListed : origin fromListed = some "https://ok.com" := by decide +kernel

theorem resolve_fromListed :
    listed.resolveOrigin (origin fromListed) = some "https://ok.com" := by
  rw [origin_fromListed]
  decide

theorem allowOrigin_once_listed :
    valuesOf allowOrigin (handle listedServer (greeting .acquired) fromListed).headers =
      ["https://ok.com"] := by
  refine (allowOrigin_once_iff listedServer (greeting .acquired) fromListed (fun _ _ _ _ _ _ => rfl)
    rfl resolve_fromListed (by decide)).2 ⟨rfl, fun _ _ _ => ?_, fun _ _ => ?_⟩
  · exact List.all_eq_true.2 fun _ _ => rfl
  · rintro ⟨leaf, params, head, hanswer, hsets⟩
    have hroute : mixedRouter.routeAndDispatch (fun _ _ => []) false (upper "GET".toList)
        "/y".toList = .dispatched 2 [] false := by decide
    obtain ⟨rfl, -, rfl⟩ := Answer.dispatched.inj (hroute.symm.trans hanswer)
    obtain ⟨res, hres, -, kv, hkv, hname⟩ := hsets
    obtain rfl := Option.some.inj hres
    obtain rfl := List.mem_singleton.1 hkv
    revert hname
    decide +kernel

/-- A request that is shed gets a 503 without the header. -/
theorem shed_without_origin :
    listedServer.cors = some listed ∧
      listed.resolveOrigin (origin fromListed) = some "https://ok.com" ∧
      probe listedServer (greeting (.rejected 1)) fromListed = none ∧
      (handle listedServer (greeting (.rejected 1)) fromListed).status = 503 ∧
      valuesOf allowOrigin (handle listedServer (greeting (.rejected 1)) fromListed).headers = [] :=
  ⟨rfl, resolve_fromListed, by decide, rfl, by decide⟩

end Cors
end OxideHttp
