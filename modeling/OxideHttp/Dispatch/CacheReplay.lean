import OxideHttp.Dispatch.CacheHits
import Mathlib.Data.Fintype.Pigeonhole

/-!
# What a hit replays (`src/server.rs`, `src/cache.rs`)

Every entry of a store is the response that a handler gave to an earlier request of the
same key.  What the key says of a request is `SameRequest`: a HEAD request on a GET route
shares the key of GET, and the body is in the key of QUERY alone, as a hash.

Result: `replay_faithful`.
-/

namespace OxideHttp
namespace Dispatch

open Body Compress Schema

/-! ## The response that is served -/

structure Served where
  status : Nat
  headers : List (String × String)
  body : Bytes
  deriving DecidableEq, Repr

/-- `cached_response`; a header that hyper does not accept makes it a 500. -/
def cachedResponse (validHeader : String × String → Bool) (requestIdHeader id : String)
    (head : Bool) (hit : Cache.Hit) : Served :=
  let headers := hit.headers ++ [(requestIdHeader, id), ("x-cache", "hit")]
  if !headers.all validHeader then
    { status := 500, headers := [], body := "Internal Server Error".toUTF8.toList }
  else if head then
    { status := hit.status
      headers :=
        if headers.any fun kv => kv.1 == "content-length" then headers
        else headers ++ [("content-length", toString hit.body.length)]
      body := [] }
  else { status := hit.status, headers := headers, body := hit.body }

/-- What a request gets from the cache in this state. -/
def LeafState.serve (env : Env) (leaf : Leaf) (requestIdHeader : String)
    (validHeader : String × String → Bool) (s : LeafState) (req : Request) (id : String) :
    Option Served :=
  match s.outcome env leaf req with
  | .cached hit => some (cachedResponse validHeader requestIdHeader id req.head hit)
  | _ => none

/-! ## The key of a request -/

/-- The hash that joins the key: that of the body of a QUERY request. -/
def bodyHash (env : Env) (req : Request) : Option UInt64 :=
  if isQuery req && req.hasBody then some (env.hashBytes (content req.events)) else none

/-- The key under which a request is looked up and stored. -/
def requestKey (env : Env) (leaf : Leaf) (req : Request) : String :=
  cacheKey leaf req (bodyHash env req)

/-- What one key says of two requests.  The method is GET for a HEAD request that a GET
route serves; of the body only a QUERY request says anything. -/
structure SameRequest (env : Env) (cfg : Cache.CacheConfig) (earlier req : Request) :
    Prop where
  method : earlier.effectiveMethod = req.effectiveMethod
  path : earlier.path = req.path
  query : earlier.queryString.getD "" = req.queryString.getD ""
  vary : ∀ name ∈ cfg.vary, headerLines earlier.headers name = headerLines req.headers name
  hasBody : isQuery req = true → earlier.hasBody = req.hasBody
  body : isQuery req = true → req.hasBody = true →
    env.hashBytes (content earlier.events) = env.hashBytes (content req.events)

section Keys

variable {env : Env} {leaf : Leaf} {req earlier : Request}
  {lookup : String → Option Cache.Hit} {handoff : Handoff} {k : String}

set_option maxRecDepth 2000 in
theorem visible_separable : ∀ n < 256, isVisibleAscii (UInt8.ofNat n) = true →
    Char.ofNat n ≠ '\n' ∧ Char.ofNat n ≠ '\x1f' := by decide

/-- What JS and the cache see of a header value has no separator of a key in it. -/
theorem separable_of_visible {v : Bytes} {s : String} (h : toStr v = some s) :
    Cache.Separable s := by
  simp only [toStr, Option.ite_none_right_eq_some, List.all_eq_true,
    Option.some.injEq] at h
  obtain ⟨hvisible, rfl⟩ := h
  have hchar : ∀ c ∈ v.map (fun b => Char.ofNat b.toNat), c ≠ '\n' ∧ c ≠ '\x1f' := by
    intro c hc
    obtain ⟨b, hb, rfl⟩ := List.mem_map.1 hc
    exact visible_separable b.toNat b.toNat_lt
      (by rw [UInt8.ofNat_toNat]; exact hvisible b hb)
  refine ⟨fun hmem => ?_, fun hmem => ?_⟩
  · rw [String.toList_ofList] at hmem
    exact (hchar _ hmem).1 rfl
  · rw [String.toList_ofList] at hmem
    exact (hchar _ hmem).2 rfl

theorem Request.headers_separable (req : Request) :
    ∀ kv ∈ req.headers, Cache.Separable kv.value := by
  intro kv hkv
  obtain ⟨line, _, rfl⟩ := List.mem_map.1 hkv
  cases hv : toStr line.2 with
  | none => exact ⟨nofun, nofun⟩
  | some s => exact separable_of_visible hv

theorem getKey_requestKey (h : getKey leaf req = some k) :
    cacheable leaf req = true ∧ k = requestKey env leaf req := by
  obtain ⟨⟨hcache, hquery⟩, rfl⟩ := getKey_eq_some.1 h
  exact ⟨hcache, by simp [requestKey, bodyHash, hquery]⟩

/-- The body of a QUERY request is buffered whole when there is one. -/
theorem bufferBodies_query {bodies : Option Bytes × Option Bytes}
    (hcache : cacheable leaf req = true) (hquery : isQuery req = true)
    (h : bufferBodies env leaf req = .ok bodies) :
    bodies.1.map env.hashBytes = bodyHash env req := by
  cases hhas : req.hasBody with
  | false =>
      simp only [bufferBodies, bufferForSchema, bufferForCache, hhas, Bool.and_false,
        Bool.or_self, Bool.false_eq_true, if_false] at h
      obtain rfl := Except.ok.inj h
      simp [bodyHash, hhas]
  | true =>
      cases hraw : bodies.1 with
      | some raw =>
          obtain ⟨_, rfl, _⟩ := bufferBodies_fst h hraw
          simp [bodyHash, hhas, hquery]
      | none =>
          simp only [bufferBodies, bufferForCache, hcache, hquery, hhas, Bool.and_self,
            Bool.or_true, if_true] at h
          split at h
          case h_1 => cases h
          case h_2 raw _ =>
            split at h
            case isFalse =>
              obtain rfl := Except.ok.inj h
              cases hraw
            case isTrue =>
              cases hplain : decodeForSchema env.codecs env.bodyLimit req.headers raw with
              | error st => simp [hplain, Except.map] at h
              | ok plain =>
                  rw [hplain] at h
                  obtain rfl := Except.ok.inj h
                  cases hraw

theorem queryKey_requestKey {bodies : Option Bytes × Option Bytes}
    (hbodies : bufferBodies env leaf req = .ok bodies)
    (h : queryKey env leaf req bodies.1 = some k) :
    cacheable leaf req = true ∧ k = requestKey env leaf req := by
  obtain ⟨⟨hcache, hquery⟩, rfl⟩ := queryKey_eq_some.1 h
  exact ⟨hcache, by rw [requestKey, bufferBodies_query hcache hquery hbodies]⟩

/-- A response is stored under the key of its request. -/
theorem toJs_requestKey (h : handleInner env leaf req lookup = .toJs handoff)
    (hk : handoff.cacheKey = some k) :
    cacheable leaf req = true ∧ k = requestKey env leaf req := by
  obtain ⟨_, _, bodies, _, _, hbodies, _, _, rfl⟩ := dispatch_toJs (handleInner_toJs h)
  rcases Option.or_eq_some_iff.1 hk with hget | ⟨_, hquery⟩
  · exact getKey_requestKey hget
  · exact queryKey_requestKey hbodies hquery

/-- A request is answered from under its own key. -/
theorem lookupKey_requestKey (h : lookupKey env leaf req = some k) :
    cacheable leaf req = true ∧ k = requestKey env leaf req := by
  unfold lookupKey at h
  split at h
  case isTrue => cases h
  case isFalse =>
    rcases Option.or_eq_some_iff.1 h with hget | ⟨_, hquery⟩
    · exact getKey_requestKey hget
    · split at hquery
      case h_1 => cases hquery
      case h_2 bodies hbodies => exact queryKey_requestKey hbodies hquery

theorem bodyHash_inj (hearlier : isQuery earlier = true) (hreq : isQuery req = true)
    (h : bodyHash env earlier = bodyHash env req) :
    earlier.hasBody = req.hasBody ∧ (req.hasBody = true →
      env.hashBytes (content earlier.events) = env.hashBytes (content req.events)) := by
  cases he : earlier.hasBody <;> cases hr : req.hasBody <;>
    simp [bodyHash, hearlier, hreq, he, hr] at h ⊢
  exact h

theorem sameRequest_of_key {cfg : Cache.CacheConfig} (hcfg : leaf.cache = some cfg)
    (he : cacheable leaf earlier = true) (hr : cacheable leaf req = true)
    (h : requestKey env leaf earlier = requestKey env leaf req) :
    SameRequest env cfg earlier req := by
  obtain ⟨hmethod, hpath, hquery⟩ := Keyed.same ⟨he, _, rfl⟩ ⟨hr, _, h⟩
  have hisQuery : isQuery earlier = isQuery req := by rw [isQuery, isQuery, hmethod]
  simp only [requestKey, cacheKey, hcfg, Option.map_some, Option.getD_some] at h
  obtain ⟨hvary, hhash⟩ := Cache.key_inj_rest earlier.effectiveMethod_line
    req.effectiveMethod_line earlier.pathLine req.pathLine earlier.queryLine req.queryLine
    earlier.headers_separable req.headers_separable h
  exact ⟨hmethod, hpath, hquery, hvary,
    fun hq => (bodyHash_inj (hisQuery.trans hq) hq hhash).1,
    fun hq => (bodyHash_inj (hisQuery.trans hq) hq hhash).2⟩

end Keys

/-! ## Where an entry comes from -/

/-- The entry of `k` is the response to an earlier call of that key. -/
def Produced (env : Env) (cfg : Cache.CacheConfig) (requestIdHeader : String)
    (s : LeafState) (es : List Event) (k : String) (e : Cache.Entry) : Prop :=
  ∃ i call res pick now, Event.respond i res pick ∈ es ∧ s.calls[i]? = some call ∧
    call.cacheKey = some k ∧ Cache.Storable env.lowercase cfg res ∧
      e = Cache.entryOf env.lowercase cfg requestIdHeader now call.req.path res

/-- Each entry has its call, and each call the key of its request. -/
structure Replays (env : Env) (leaf : Leaf) (cfg : Cache.CacheConfig)
    (requestIdHeader : String) (s : LeafState) (es : List Event) : Prop where
  entries : ∀ d ∈ s.store.entries, Produced env cfg requestIdHeader s es d.1 d.2
  keys : ∀ call ∈ s.calls, ∀ k, call.cacheKey = some k →
    cacheable leaf call.req = true ∧ k = requestKey env leaf call.req

section Runs

variable {env : Env} {leaf : Leaf} {cfg : Cache.CacheConfig} {requestIdHeader : String}
  {s t : LeafState} {e : Event} {es : List Event}

/-- A step keeps the entries of one kind answers to calls, and adds to them at most the
answer that it gives. -/
theorem produced_step (hcfg : leaf.cache = some cfg) (P : Cache.Entry → Prop)
    (h : ∀ d ∈ s.store.entries, P d.2 → Produced env cfg requestIdHeader s es d.1 d.2)
    (hstep : s.step env leaf requestIdHeader e = some t) :
    ∀ d ∈ t.store.entries, P d.2 → Produced env cfg requestIdHeader t (es ++ [e]) d.1 d.2 := by
  intro d hd hP
  rcases store_step hstep hd with
    hold | ⟨i, call, res, pick, cfg', rfl, hget, hcfg', hk, hres, he⟩
  · obtain ⟨i, call, res, pick, now, hmem, hget, hk, hres, he⟩ := h d hold hP
    obtain ⟨call', hget', hreq, hkey⟩ := calls_step hstep hget
    exact ⟨i, call', res, pick, now, List.mem_append_left _ hmem, hget', hkey.trans hk,
      hres, hreq ▸ he⟩
  · obtain rfl := Option.some.inj (hcfg.symm.trans hcfg')
    obtain ⟨call', hget', hreq, hkey⟩ := calls_step hstep hget
    exact ⟨i, call', res, pick, s.now, by simp, hget', hkey.trans hk, hres, hreq ▸ he⟩

theorem replays_init : Replays env leaf cfg requestIdHeader LeafState.init [] :=
  ⟨nofun, nofun⟩

theorem Replays.step (hcfg : leaf.cache = some cfg)
    (h : Replays env leaf cfg requestIdHeader s es)
    (hstep : s.step env leaf requestIdHeader e = some t) :
    Replays env leaf cfg requestIdHeader t (es ++ [e]) := by
  refine ⟨fun d hd => ?_, fun call hcall k hk => ?_⟩
  · exact produced_step hcfg (fun _ => True) (fun d hd _ => h.entries d hd) hstep d hd trivial
  · rcases call_step hstep hcall with ⟨c, hc, hreq, hkey⟩ | ⟨handoff, hout, hkey⟩
    · exact hreq ▸ h.keys c hc k (hkey.trans hk)
    · exact toJs_requestKey hout (hkey.symm.trans hk)

/-- A hit is the answer to an earlier call of the same request. -/
theorem Replays.hit (hcfg : leaf.cache = some cfg)
    (h : Replays env leaf cfg requestIdHeader s es) {req : Request} {hit : Cache.Hit}
    (hcached : s.outcome env leaf req = .cached hit) :
    ∃ k e, (k, e) ∈ s.store.entries ∧
      hit = { status := e.status, headers := e.headers, body := e.body } ∧
        ∀ call ∈ s.calls, call.cacheKey = some k → SameRequest env cfg call.req req := by
  obtain ⟨_, _, k, hk, hhit, _⟩ := handleInner_cached hcached
  obtain ⟨e, he, _, rfl⟩ := Cache.lookup_eq_some_iff.1 hhit
  obtain ⟨hcache', hsame'⟩ := lookupKey_requestKey hk
  refine ⟨k, e, Cache.Store.get_eq_some_iff.1 he, rfl, fun call hcall hkey => ?_⟩
  obtain ⟨hcache, hsame⟩ := h.keys call hcall k hkey
  exact sameRequest_of_key hcfg hcache hcache' (hsame.symm.trans hsame')

end Runs

/--
Every response that the cache serves is the one that the handler gave to an earlier
request: with its status, its body and its headers without the request id.  The two
requests have the same method, where HEAD counts as GET on a GET route, the same path,
query string and `vary` values, and on QUERY bodies of the same hash.
-/
theorem replay_faithful (env : Env) (leaf : Leaf) (cfg : Cache.CacheConfig)
    (hcfg : leaf.cache = some cfg) (requestIdHeader : String) (es : List Event)
    (s : LeafState)
    (hrun : Transition.run (LeafState.step env leaf requestIdHeader) LeafState.init es =
      some s)
    (validHeader : String × String → Bool) (req : Request) (id : String) (r : Served)
    (hserve : s.serve env leaf requestIdHeader validHeader req id = some r) :
    ∃ i call res pick, Event.respond i res pick ∈ es ∧ s.calls[i]? = some call ∧
      SameRequest env cfg call.req req ∧ Cache.Storable env.lowercase cfg res ∧
        r = cachedResponse validHeader requestIdHeader id req.head
          { status := 200
            headers := Cache.replayHeaders env.lowercase requestIdHeader
              (res.headers.getD [])
            body := res.body.getD [] } := by
  have hreplays : Replays env leaf cfg requestIdHeader s es :=
    Transition.run_history (J := Replays env leaf cfg requestIdHeader) replays_init
      (fun _ _ _ _ h hstep => h.step hcfg hstep) hrun
  unfold LeafState.serve at hserve
  split at hserve
  case h_2 => cases hserve
  case h_1 hit hcached =>
    obtain rfl := Option.some.inj hserve
    obtain ⟨k, e, he, rfl, hsame⟩ := hreplays.hit hcfg hcached
    obtain ⟨i, call, res, pick, now, hmem, hget, hkey, hres, rfl⟩ := hreplays.entries (k, e) he
    refine ⟨i, call, res, pick, hmem, hget, hsame call (List.mem_of_getElem? hget) hkey, hres, ?_⟩
    simp [Cache.entryOf, hres.status]

/-- A cached route without a schema. -/
def openLeaf : Leaf :=
  { plainLeaf with
    cache := some { ttl := 1000, vary := [], maxEntries := 16, maxBodyBytes := 1024 } }

theorem replay_faithful_get :
    ∃ s r, Transition.run (LeafState.step sampleEnv openLeaf "x-request-id") LeafState.init
        storing = some s ∧
      s.serve sampleEnv openLeaf "x-request-id" (fun _ => true) getBraces "7" = some r ∧
      ∃ i call res pick, Event.respond i res pick ∈ storing ∧ s.calls[i]? = some call ∧
        r = cachedResponse (fun _ => true) "x-request-id" "7" false
          { status := 200
            headers := Cache.replayHeaders sampleEnv.lowercase "x-request-id"
              (res.headers.getD [])
            body := res.body.getD [] } := by
  refine ⟨_, _, rfl, rfl, ?_⟩
  obtain ⟨i, call, res, pick, hmem, hget, _, _, hr⟩ := replay_faithful sampleEnv openLeaf _ rfl
    "x-request-id" storing _ rfl (fun _ => true) getBraces "7" _ rfl
  exact ⟨i, call, res, pick, hmem, hget, hr⟩

/-! ## What the key leaves out -/

/-- A HEAD request that the GET route serves. -/
def headOfGet : Request :=
  { get [] [] with
    method := "HEAD"
    head := true
    methodLine := by decide }

/-- A QUERY of `/` with a body in one frame. -/
def query (body : Bytes) : Request :=
  { post [("content-length", [50])] [.data body] with
    method := "QUERY"
    methodLine := by decide }

/-- The sample server without a body limit, and with any hash of bodies. -/
def hashEnv (hash : Bytes → UInt64) : Env :=
  { sampleEnv with bodyLimit := none, hashBytes := hash }

section Query

variable {hash : Bytes → UInt64} {b c : Bytes}

theorem requestKey_query (hash : Bytes → UInt64) (b : Bytes) :
    requestKey (hashEnv hash) openLeaf (query b) =
      cacheKey openLeaf (query []) (some (hash b)) := by
  have hbody : content (query b).events = b := List.append_nil b
  have hhash : bodyHash (hashEnv hash) (query b) = some (hash b) := by
    rw [bodyHash, hbody]
    rfl
  rw [requestKey, hhash]
  rfl

theorem query_cached {lookup : String → Option Cache.Hit} {hit : Cache.Hit}
    (h : lookup (requestKey (hashEnv hash) openLeaf (query b)) = some hit) :
    handleInner (hashEnv hash) openLeaf (query b) lookup = .cached hit := by
  rw [requestKey_query] at h
  have hlength : (contentLength (query b).header).any (overLimit (hashEnv hash).bodyLimit) =
      false := rfl
  have hget : (getKey openLeaf (query b)).bind lookup = none := rfl
  have hform : multipartEvents (hashEnv hash) openLeaf (query b) = .ok none := rfl
  have hbodies : bufferBodies (hashEnv hash) openLeaf (query b) = .ok (some b, none) := rfl
  have hkey : (queryKey (hashEnv hash) openLeaf (query b) (some b)).bind lookup = some hit := h
  simp only [handleInner, hlength, dispatch, hget, hform, hbodies, hkey]
  rfl

/-- The response to one body is served for another body of the same hash. -/
theorem query_shared (h : hash b = hash c) :
    ∃ s hit, Transition.run (LeafState.step (hashEnv hash) openLeaf "x-request-id")
        LeafState.init [.arrive (query b), .respond 0 okResponse 0] = some s ∧
      s.outcome (hashEnv hash) openLeaf (query c) = .cached hit ∧
      s.calls.map Call.req = [query b] := by
  refine ⟨_, { status := 200, headers := [], body := [] }, rfl, query_cached ?_, rfl⟩
  rw [requestKey_query, ← h]
  exact Cache.lookup_eq_some_iff.2
    ⟨{ path := "/", status := 200, headers := [], body := [], expires := 1000 },
      Cache.Store.get_eq_some_iff.2 List.mem_cons_self, Nat.zero_lt_succ _, rfl⟩

/-- No hash of bodies tells all of them apart. -/
theorem exists_collision (hash : Bytes → UInt64) : ∃ b c, b ≠ c ∧ hash b = hash c := by
  obtain ⟨b, c, hne, hsame⟩ :=
    Finite.exists_ne_map_eq_of_infinite fun b => (hash b).toBitVec.toFin
  exact ⟨b, c, hne, UInt64.toBitVec_inj.1 (BitVec.toFin_inj.1 hsame)⟩

end Query

/-- A hit need not come from a request of the same method, nor of the same body: an
auto-HEAD request fills the entry of GET, the body of a GET is not in the key, and
whatever the hash is, two bodies of QUERY share it. -/
theorem replay_differs :
    (¬ ∀ (es : List Event) (s : LeafState) (req : Request) (hit : Cache.Hit),
        Transition.run (LeafState.step sampleEnv openLeaf "x-request-id") LeafState.init es =
          some s → s.outcome sampleEnv openLeaf req = .cached hit →
        ∃ call ∈ s.calls, call.req.method = req.method) ∧
      (¬ ∀ (es : List Event) (s : LeafState) (req : Request) (hit : Cache.Hit),
        Transition.run (LeafState.step sampleEnv openLeaf "x-request-id") LeafState.init es =
          some s → s.outcome sampleEnv openLeaf req = .cached hit → req.method = "GET" →
        ∃ call ∈ s.calls, content call.req.events = content req.events) ∧
      ∀ hash : Bytes → UInt64,
        ¬ ∀ (es : List Event) (s : LeafState) (req : Request) (hit : Cache.Hit),
          Transition.run (LeafState.step (hashEnv hash) openLeaf "x-request-id")
            LeafState.init es = some s →
          s.outcome (hashEnv hash) openLeaf req = .cached hit →
          ∃ call ∈ s.calls, content call.req.events = content req.events := by
  refine ⟨fun hall => ?_, fun hall => ?_, fun hash hall => ?_⟩
  · obtain ⟨call, hcall, hmethod⟩ := hall [.arrive headOfGet, .respond 0 okResponse 0] _
      (get [] []) _ rfl rfl
    obtain rfl := List.mem_singleton.1 hcall
    exact absurd hmethod (by decide)
  · obtain ⟨call, hcall, hbody⟩ := hall storing _ (get [] []) _ rfl rfl rfl
    obtain rfl := List.mem_singleton.1 hcall
    exact absurd hbody (by decide)
  · obtain ⟨b, c, hne, hsame⟩ := exists_collision hash
    obtain ⟨s, hit, hrun, hcached, hcalls⟩ := query_shared hsame
    obtain ⟨call, hcall, hbody⟩ := hall _ s (query c) hit hrun hcached
    have hreq : call.req = query b := by
      have hmem := List.mem_map_of_mem (f := Call.req) hcall
      rw [hcalls] at hmem
      exact List.mem_singleton.1 hmem
    rw [hreq] at hbody
    exact hne ((List.append_nil b).symm.trans (hbody.trans (List.append_nil c)))

end Dispatch
end OxideHttp
