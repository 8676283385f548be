import OxideHttp.Cache.Refinement
import OxideHttp.Dispatch

/-!
# Cache hits and validation (`src/server.rs`, `src/cache.rs`)

One cached route leaf and everything that happens to its store: requests arrive,
handlers answer, clients leave, entries expire and are purged.  A hit skips the
body and the schema.

Result: `hits_validated`, a hit is safe as long as the schema would see a body
that a request of the same key was validated with; the key alone does not say so.
-/

namespace OxideHttp
namespace Dispatch

open Body Compress Schema

/-! ## The decision without a cache -/

/-- The request reaches a handler when nothing is cached. -/
def Passes (env : Env) (leaf : Leaf) (req : Request) : Prop :=
  ∃ handoff, handleInner env leaf req (fun _ => none) = .toJs handoff

/-- The declared length, the frames and the schema admit the request. -/
structure Admitted (env : Env) (leaf : Leaf) (req : Request) : Prop where
  length : (contentLength req.header).any (overLimit env.bodyLimit) = false
  checks : ∃ form bodies validated, multipartEvents env leaf req = .ok form ∧
    bufferBodies env leaf req = .ok bodies ∧ validate env leaf req bodies.2 = .ok validated

/-- The body validator of the leaf, if any, looks at the body. -/
def Leaf.checksBody (leaf : Leaf) : Bool := leaf.activeSchema.any LeafSchema.hasBody

/-- `k` is a cache key of the request. -/
def Keyed (leaf : Leaf) (req : Request) (k : String) : Prop :=
  cacheable leaf req = true ∧ ∃ bodyHash, k = cacheKey leaf req bodyHash

/-- The key that `handleInner` looks up on its way. -/
def lookupKey (env : Env) (leaf : Leaf) (req : Request) : Option String :=
  if (contentLength req.header).any (overLimit env.bodyLimit) then none
  else
    (getKey leaf req).or
      (match bufferBodies env leaf req with
        | .error _ => none
        | .ok bodies => queryKey env leaf req bodies.1)

section Decision

variable {env : Env} {leaf : Leaf} {req earlier : Request}
  {lookup : String → Option Cache.Hit} {handoff : Handoff} {k : String}

theorem admitted_of_toJs (h : handleInner env leaf req lookup = .toJs handoff) :
    Admitted env leaf req := by
  obtain ⟨_, form, bodies, validated, hform, hbodies, _, hvalid, _⟩ :=
    dispatch_toJs (handleInner_toJs h)
  refine ⟨?_, form, bodies, validated, hform, hbodies, hvalid⟩
  unfold handleInner at h
  split at h
  case isTrue => cases h
  case isFalse hlength => exact Bool.eq_false_iff.2 hlength

theorem passes_iff : Passes env leaf req ↔ Admitted env leaf req := by
  constructor
  · rintro ⟨handoff, h⟩
    exact admitted_of_toJs h
  · rintro ⟨hlength, form, bodies, validated, hform, hbodies, hvalid⟩
    simp only [Passes, handleInner, hlength, dispatch,
      Option.bind_fun_none, hform, hbodies, hvalid]
    exact ⟨_, rfl⟩

theorem getKey_eq_some :
    getKey leaf req = some k ↔
      (cacheable leaf req = true ∧ isQuery req = false) ∧ cacheKey leaf req none = k := by
  simp [getKey]

theorem queryKey_eq_some {buffered : Option Bytes} :
    queryKey env leaf req buffered = some k ↔
      (cacheable leaf req = true ∧ isQuery req = true) ∧
        cacheKey leaf req (buffered.map env.hashBytes) = k := by
  simp [queryKey]

theorem getKey_keyed (h : getKey leaf req = some k) : Keyed leaf req k := by
  obtain ⟨⟨hcache, _⟩, rfl⟩ := getKey_eq_some.1 h
  exact ⟨hcache, none, rfl⟩

theorem queryKey_keyed {buffered : Option Bytes}
    (h : queryKey env leaf req buffered = some k) : Keyed leaf req k := by
  obtain ⟨⟨hcache, _⟩, rfl⟩ := queryKey_eq_some.1 h
  exact ⟨hcache, _, rfl⟩

/-- The key under which a response may be stored is a key of its request. -/
theorem toJs_keyed (h : handleInner env leaf req lookup = .toJs handoff)
    (hk : handoff.cacheKey = some k) : Keyed leaf req k := by
  obtain ⟨_, _, bodies, _, _, _, _, _, rfl⟩ := dispatch_toJs (handleInner_toJs h)
  rcases Option.or_eq_some_iff.1 hk with hget | ⟨_, hquery⟩
  · exact getKey_keyed hget
  · exact queryKey_keyed hquery

theorem lookupKey_get
    (hlength : (contentLength req.header).any (overLimit env.bodyLimit) = false)
    (hk : getKey leaf req = some k) : lookupKey env leaf req = some k := by
  rw [lookupKey, hlength, if_neg Bool.false_ne_true, hk, Option.some_or]

theorem lookupKey_query {bodies : Option Bytes × Option Bytes}
    (hlength : (contentLength req.header).any (overLimit env.bodyLimit) = false)
    (hbodies : bufferBodies env leaf req = .ok bodies)
    (hk : queryKey env leaf req bodies.1 = some k) : lookupKey env leaf req = some k := by
  have hnone : getKey leaf req = none := by
    simp [getKey, (queryKey_eq_some.1 hk).1.2]
  rw [lookupKey, hlength, if_neg Bool.false_ne_true, hnone, Option.none_or]
  simp only [hbodies, hk]

/-- What a hit says about the request. -/
theorem handleInner_cached {hit : Cache.Hit}
    (h : handleInner env leaf req lookup = .cached hit) :
    (contentLength req.header).any (overLimit env.bodyLimit) = false ∧
      (isQuery req = true → ∃ bodies, bufferBodies env leaf req = .ok bodies) ∧
      ∃ k, lookupKey env leaf req = some k ∧ lookup k = some hit ∧ Keyed leaf req k := by
  unfold handleInner at h
  split at h
  case isTrue => cases h
  case isFalse hlength =>
    rw [Bool.not_eq_true] at hlength
    refine ⟨hlength, ?_⟩
    unfold dispatch at h
    split at h
    case h_1 hget =>
      obtain rfl := Outcome.cached.inj h
      obtain ⟨k, hk, hhit⟩ := Option.bind_eq_some_iff.1 hget
      have hnot := (getKey_eq_some.1 hk).1.2
      exact ⟨fun hq => absurd (hnot.symm.trans hq) Bool.false_ne_true, k,
        lookupKey_get hlength hk, hhit, getKey_keyed hk⟩
    case h_2 =>
      split at h
      case h_1 => cases h
      case h_2 =>
        split at h
        case h_1 => cases h
        case h_2 bodies hbodies =>
          refine ⟨fun _ => ⟨bodies, hbodies⟩, ?_⟩
          split at h
          case h_1 hquery =>
            obtain rfl := Outcome.cached.inj h
            obtain ⟨k, hk, hhit⟩ := Option.bind_eq_some_iff.1 hquery
            exact ⟨k, lookupKey_query hlength hbodies hk, hhit, queryKey_keyed hk⟩
          case h_2 => split at h <;> cases h

/-! ## Two requests of one key -/

theorem Request.effectiveMethod_line (req : Request) :
    Cache.OneLine req.effectiveMethod := by
  unfold Request.effectiveMethod
  split
  case isTrue => decide
  case isFalse => exact req.methodLine

/-- Equal keys come from the same method, path and query string. -/
theorem Keyed.same (he : Keyed leaf earlier k) (hr : Keyed leaf req k) :
    earlier.effectiveMethod = req.effectiveMethod ∧ earlier.path = req.path ∧
      earlier.queryString.getD "" = req.queryString.getD "" := by
  obtain ⟨_, b, rfl⟩ := he
  obtain ⟨_, b', hkey⟩ := hr
  exact Cache.key_inj earlier.effectiveMethod_line req.effectiveMethod_line earlier.pathLine
    req.pathLine earlier.queryLine req.queryLine hkey

theorem parseQuery_eq (hform : env.formUrlencoded "" = []) (q : Option String) :
    parseQuery env q = env.formUrlencoded (q.getD "") := by
  cases q with
  | none => exact hform.symm
  | some s => rfl

theorem cacheable_multipart (h : cacheable leaf req = true) : leaf.multipart = none := by
  simp only [cacheable, Bool.and_eq_true] at h
  exact Option.isNone_iff_eq_none.1 h.1.2

/-- The schema would be shown the same body: both requests have none, or the
frames of this one end cleanly with the content and the encoding of the other. -/
def SameBody (env : Env) (earlier req : Request) : Prop :=
  req.hasBody = earlier.hasBody ∧
    (req.hasBody = true →
      Clean env.readTimeout req.events ∧ content req.events = content earlier.events ∧
        contentEncoding req.headers = contentEncoding earlier.headers)

/-- Without a body validator the decoded body does not matter. -/
theorem validate_unchecked (hcheck : leaf.checksBody = false)
    (decoded decoded' : Option Bytes) :
    validate env leaf req decoded = validate env leaf req decoded' := by
  unfold validate
  split
  case h_1 => rfl
  case h_2 s hs =>
    have hbody : s.hasBody = false := by simpa [Leaf.checksBody, hs] using hcheck
    exact validate_of_no_body env.serde hbody _ _ decoded decoded'

/-- Where a body is read, the schema is shown the same document. -/
theorem bufferBodies_same {bodies : Option Bytes × Option Bytes}
    (hcheck : leaf.checksBody = true) (hmp : leaf.multipart = none)
    (hsame : SameBody env earlier req)
    (h : bufferBodies env leaf earlier = .ok bodies) :
    bufferBodies env leaf req = .ok bodies := by
  obtain ⟨hhas, hread⟩ := hsame
  have hschema : ∀ r : Request, bufferForSchema leaf r = r.hasBody := by
    intro r
    simp only [Leaf.checksBody] at hcheck
    simp [bufferForSchema, hcheck, hmp]
  cases hbody : req.hasBody with
  | false =>
      rw [hbody] at hhas
      have hnothing : ∀ r : Request, r.hasBody = false →
          bufferBodies env leaf r = .ok (none, none) := by
        intro r hr
        rw [bufferBodies, hschema, hr, bufferForCache, hr]
        simp
      rw [hnothing earlier hhas.symm] at h
      rw [hnothing req hbody, h]
  | true =>
      obtain ⟨hclean, hcontent, hencoding⟩ := hread hbody
      rw [hbody] at hhas
      rw [bufferBodies, hschema, ← hhas, Bool.true_or, if_pos rfl] at h
      rw [bufferBodies, hschema, hbody, Bool.true_or, if_pos rfl]
      cases hraw : bufferBody env.bodyLimit env.readTimeout [] earlier.events with
      | error e => simp [hraw] at h
      | ok raw =>
          obtain ⟨hwhole, hlimit⟩ := bufferBody_ok hraw (overLimit_zero _)
          rw [List.nil_append] at hwhole
          have hagain := bufferBody_clean env.bodyLimit env.readTimeout [] req.events hclean
            (by rwa [List.length_nil, Nat.zero_add, hcontent, ← hwhole])
          rw [hagain, List.nil_append, hcontent, ← hwhole]
          rw [hraw] at h
          simpa only [decodeForSchema, hencoding] using h

/-- A request of the key of an admitted one is admitted, if the schema is shown
the same body. -/
theorem Admitted.transfer (hform : env.formUrlencoded "" = [])
    (ha : Admitted env leaf earlier) (he : Keyed leaf earlier k) (hr : Keyed leaf req k)
    (hlength : (contentLength req.header).any (overLimit env.bodyLimit) = false)
    (hread : isQuery req = true → ∃ bodies, bufferBodies env leaf req = .ok bodies)
    (hsame : leaf.checksBody = true → SameBody env earlier req) :
    Admitted env leaf req := by
  obtain ⟨_, hpath, hquery⟩ := he.same hr
  have hmp := cacheable_multipart hr.1
  have hvalidate : ∀ decoded, validate env leaf req decoded =
      validate env leaf earlier decoded := by
    intro decoded
    rw [validate, validate, parseQuery_eq hform, parseQuery_eq hform, hpath, hquery]
  have hmultipart : multipartEvents env leaf req = .ok none := by
    rw [multipartEvents, hmp]
  obtain ⟨_, _, bodies, validated, _, hbodies, hvalid⟩ := ha
  refine ⟨hlength, none, ?_⟩
  cases hcheck : leaf.checksBody with
  | true =>
      refine ⟨bodies, validated, hmultipart,
        bufferBodies_same hcheck hmp (hsame hcheck) hbodies, ?_⟩
      rw [hvalidate, hvalid]
  | false =>
      obtain ⟨bodies', hbodies'⟩ : ∃ bodies, bufferBodies env leaf req = .ok bodies := by
        cases hq : isQuery req with
        | true => exact hread hq
        | false =>
            refine ⟨(none, none), ?_⟩
            simp only [Leaf.checksBody] at hcheck
            simp [bufferBodies, bufferForSchema, bufferForCache, hcheck, hq]
      refine ⟨bodies', validated, hmultipart, hbodies', ?_⟩
      rw [hvalidate, validate_unchecked hcheck bodies'.2 bodies.2, hvalid]

end Decision

/-! ## The life of a store -/

/-- A request that was handed to JS. -/
structure Call where
  req : Request
  cacheKey : Option String
  /-- its future still waits for the response -/
  waiting : Bool

structure LeafState where
  store : Cache.Store
  now : Nat
  calls : List Call

inductive Event where
  | arrive (req : Request)
  /-- JS answers call `i`; `pick` is the entry that a full store drops -/
  | respond (i : Nat) (res : Cache.JsResponse) (pick : Nat)
  /-- the client of call `i` disconnects -/
  | gone (i : Nat)
  | purge (path : Option String)
  | tick (elapsed : Nat)

def LeafState.init : LeafState := { store := Cache.Store.empty, now := 0, calls := [] }

section Life

variable (env : Env) (leaf : Leaf) (requestIdHeader : String)

/-- What `handle_inner` decides in this state. -/
def LeafState.outcome (s : LeafState) (req : Request) : Outcome :=
  handleInner env leaf req fun k => (Cache.lookup s.now s.store k).1

/-- The store after `handle_inner` looked its key up. -/
def LeafState.lookedUp (s : LeafState) (req : Request) : Cache.Store :=
  match lookupKey env leaf req with
  | none => s.store
  | some k => (Cache.lookup s.now s.store k).2

def LeafState.arrive (s : LeafState) (req : Request) : LeafState :=
  { s with
    store := s.lookedUp env leaf req
    calls :=
      match s.outcome env leaf req with
      | .toJs handoff =>
          s.calls ++ [{ req := req, cacheKey := handoff.cacheKey, waiting := true }]
      | _ => s.calls }

/-- The store after the response of a call. -/
def LeafState.stored (s : LeafState) (call : Call) (res : Cache.JsResponse) (pick : Nat) :
    Cache.Store :=
  match leaf.cache, call.cacheKey with
  | some cfg, some k =>
      Cache.maybeStore env.lowercase cfg requestIdHeader s.now s.now pick s.store k
        call.req.path res
  | _, _ => s.store

def LeafState.step (s : LeafState) : Event → Option LeafState
  | .arrive req => some (s.arrive env leaf req)
  | .respond i res pick =>
      (s.calls[i]?.filter Call.waiting).map fun call =>
        { s with
          store := s.stored env leaf requestIdHeader call res pick
          calls := s.calls.set i { call with waiting := false } }
  | .gone i =>
      (s.calls[i]?.filter Call.waiting).map fun call =>
        { s with calls := s.calls.set i { call with waiting := false } }
  | .purge path => some { s with store := Cache.purge s.store path }
  | .tick elapsed => some { s with now := s.now + elapsed }

/-- An arriving request that is answered from the cache would have passed. -/
def HitValidated (s : LeafState) : Event → Prop
  | .arrive req => ∀ hit, s.outcome env leaf req = .cached hit → Passes env leaf req
  | _ => True

/-- If the store holds a live entry for the key of an arriving request and the
schema checks bodies, a request of that key was handed to JS with the same body. -/
def BodySeen (s : LeafState) : Event → Prop
  | .arrive req =>
      ∀ k, lookupKey env leaf req = some k → (Cache.lookup s.now s.store k).1.isSome →
        leaf.checksBody = true →
        ∃ call ∈ s.calls, call.cacheKey = some k ∧ SameBody env call.req req
  | _ => True

/-- Entries belong to calls, and calls passed the checks. -/
structure Traced (s : LeafState) : Prop where
  stored : s.store.KeysIn fun k => ∃ call ∈ s.calls, call.cacheKey = some k
  passed : ∀ call ∈ s.calls, Admitted env leaf call.req
  keyed : ∀ call ∈ s.calls, ∀ k, call.cacheKey = some k → Keyed leaf call.req k

end Life

section Safety

variable {env : Env} {leaf : Leaf} {requestIdHeader : String} {s t : LeafState} {e : Event}

theorem traced_init : Traced env leaf LeafState.init where
  stored := Cache.keysIn_empty
  passed := fun _ h => nomatch h
  keyed := fun _ h => nomatch h

/-- A call keeps its place, its request and its key. -/
theorem calls_step (hstep : s.step env leaf requestIdHeader e = some t) {i : Nat}
    {call : Call} (h : s.calls[i]? = some call) :
    ∃ call', t.calls[i]? = some call' ∧ call'.req = call.req ∧
      call'.cacheKey = call.cacheKey := by
  have hset : ∀ (j : Nat) (c : Call), s.calls[j]? = some c →
      ∃ call', (s.calls.set j { c with waiting := false })[i]? = some call' ∧
        call'.req = call.req ∧ call'.cacheKey = call.cacheKey := by
    intro j c hc
    by_cases hij : j = i
    · subst hij
      obtain rfl := Option.some.inj (hc.symm.trans h)
      obtain ⟨hlt, _⟩ := List.getElem?_eq_some_iff.1 h
      exact ⟨{ c with waiting := false }, by simp [hlt], rfl, rfl⟩
    · exact ⟨call, by rw [List.getElem?_set_ne hij, h], rfl, rfl⟩
  cases e with
  | arrive req =>
      obtain rfl := Option.some.inj hstep
      refine ⟨call, ?_, rfl, rfl⟩
      unfold LeafState.arrive
      split
      case h_1 =>
        obtain ⟨hlt, _⟩ := List.getElem?_eq_some_iff.1 h
        exact (List.getElem?_append_left hlt).trans h
      case h_2 => exact h
  | respond i res pick | gone i =>
      obtain ⟨c, hc, rfl⟩ := Option.map_eq_some_iff.1 hstep
      exact hset _ c (Option.filter_eq_some_iff.1 hc).1
  | purge path | tick elapsed =>
      obtain rfl := Option.some.inj hstep
      exact ⟨call, h, rfl, rfl⟩

/-- What a step leaves in the store was there before, or is the answer to a call. -/
theorem store_step (hstep : s.step env leaf requestIdHeader e = some t)
    {d : String × Cache.Entry} (hd : d ∈ t.store.entries) :
    d ∈ s.store.entries ∨ ∃ i call res pick cfg, e = .respond i res pick ∧
      s.calls[i]? = some call ∧ leaf.cache = some cfg ∧ call.cacheKey = some d.1 ∧
        Cache.Storable env.lowercase cfg res ∧
          d.2 = Cache.entryOf env.lowercase cfg requestIdHeader s.now call.req.path res := by
  cases e with
  | arrive req =>
      obtain rfl := Option.some.inj hstep
      refine Or.inl ?_
      simp only [LeafState.arrive, LeafState.lookedUp] at hd
      split at hd
      case h_1 => exact hd
      case h_2 => exact Cache.lookup_sub _ hd
  | respond i res pick =>
      obtain ⟨call, hcall, rfl⟩ := Option.map_eq_some_iff.1 hstep
      obtain ⟨hget, _⟩ := Option.filter_eq_some_iff.1 hcall
      simp only [LeafState.stored] at hd
      split at hd
      case h_2 => exact Or.inl hd
      case h_1 cfg k hcfg hk =>
        rw [Cache.maybeStore_eq] at hd
        split at hd
        case isFalse => exact Or.inl hd
        case isTrue hres =>
          rcases Cache.Store.mem_insert.1 hd with rfl | ⟨hold, _⟩
          · exact Or.inr ⟨i, call, res, pick, cfg, rfl, hget, hcfg, hk, hres, rfl⟩
          · exact Or.inl (Cache.makeRoom_sub _ _ hold)
  | gone i =>
      obtain ⟨c, _, rfl⟩ := Option.map_eq_some_iff.1 hstep
      exact Or.inl hd
  | purge path =>
      obtain rfl := Option.some.inj hstep
      cases path with
      | none => cases hd
      | some p => exact Or.inl (Cache.Store.mem_retain.1 hd).1
  | tick elapsed =>
      obtain rfl := Option.some.inj hstep
      exact Or.inl hd

/-- A call of a step was there before, or has just been handed to JS. -/
theorem call_step (hstep : s.step env leaf requestIdHeader e = some t) {call : Call}
    (hcall : call ∈ t.calls) :
    (∃ c ∈ s.calls, c.req = call.req ∧ c.cacheKey = call.cacheKey) ∨
      ∃ handoff, s.outcome env leaf call.req = .toJs handoff ∧
        call.cacheKey = handoff.cacheKey := by
  have hset : ∀ (j : Nat) (c : Call), s.calls[j]? = some c →
      call ∈ s.calls.set j { c with waiting := false } →
        ∃ c ∈ s.calls, c.req = call.req ∧ c.cacheKey = call.cacheKey := by
    intro j c hc hmem
    rcases List.mem_or_eq_of_mem_set hmem with hmem | rfl
    · exact ⟨call, hmem, rfl, rfl⟩
    · exact ⟨c, List.mem_of_getElem? hc, rfl, rfl⟩
  cases e with
  | arrive req =>
      obtain rfl := Option.some.inj hstep
      simp only [LeafState.arrive] at hcall
      split at hcall
      case h_2 => exact Or.inl ⟨call, hcall, rfl, rfl⟩
      case h_1 handoff hout =>
        rcases List.mem_append.1 hcall with hold | hnew
        · exact Or.inl ⟨call, hold, rfl, rfl⟩
        · obtain rfl := List.mem_singleton.1 hnew
          exact Or.inr ⟨handoff, hout, rfl⟩
  | respond i res pick | gone i =>
      obtain ⟨c, hc, rfl⟩ := Option.map_eq_some_iff.1 hstep
      exact Or.inl (hset _ c (Option.filter_eq_some_iff.1 hc).1 hcall)
  | purge path | tick elapsed =>
      obtain rfl := Option.some.inj hstep
      exact Or.inl ⟨call, hcall, rfl, rfl⟩

theorem Traced.step (h : Traced env leaf s)
    (hstep : s.step env leaf requestIdHeader e = some t) : Traced env leaf t := by
  refine ⟨fun d hd => ?_, fun call hcall => ?_, fun call hcall k hk => ?_⟩
  · obtain ⟨i, call, hget, hk⟩ : ∃ (i : Nat) (call : Call), s.calls[i]? = some call ∧
        call.cacheKey = some d.1 := by
      rcases store_step hstep hd with hold | ⟨i, call, _, _, _, _, hget, _, hk, _, _⟩
      · obtain ⟨call, hcall, hk⟩ := h.stored d hold
        obtain ⟨i, hget⟩ := List.mem_iff_getElem?.1 hcall
        exact ⟨i, call, hget, hk⟩
      · exact ⟨i, call, hget, hk⟩
    obtain ⟨call', hget', -, hkey⟩ := calls_step hstep hget
    exact ⟨call', List.mem_of_getElem? hget', hkey.trans hk⟩
  · rcases call_step hstep hcall with ⟨c, hc, hreq, -⟩ | ⟨handoff, hout, -⟩
    · exact hreq ▸ h.passed c hc
    · exact admitted_of_toJs hout
  · rcases call_step hstep hcall with ⟨c, hc, hreq, hkey⟩ | ⟨handoff, hout, hkey⟩
    · exact hreq ▸ h.keyed c hc k (hkey.trans hk)
    · exact toJs_keyed hout (hkey.symm.trans hk)

theorem Traced.hitValidated (hform : env.formUrlencoded "" = []) (h : Traced env leaf s)
    (hseen : BodySeen env leaf s e) : HitValidated env leaf s e := by
  cases e with
  | arrive req =>
      intro hit hcached
      obtain ⟨hlength, hread, k, hlookup, hhit, hkeyed⟩ := handleInner_cached hcached
      have hlive : (Cache.lookup s.now s.store k).1.isSome := by
        rw [hhit]
        rfl
      obtain ⟨call, hcall, hk, hsame⟩ : ∃ call ∈ s.calls, call.cacheKey = some k ∧
          (leaf.checksBody = true → SameBody env call.req req) := by
        cases hcheck : leaf.checksBody with
        | true =>
            obtain ⟨call, hcall, hk, hsame⟩ := hseen k hlookup hlive hcheck
            exact ⟨call, hcall, hk, fun _ => hsame⟩
        | false =>
            obtain ⟨call, hcall, hk⟩ := h.stored.of_lookup hhit
            exact ⟨call, hcall, hk, fun hc => nomatch hc⟩
      exact passes_iff.2 ((h.passed call hcall).transfer hform (h.keyed call hcall k hk)
        hkeyed hlength hread hsame)
  | respond | gone | purge | tick => trivial

/--
In every run in which each request that finds a live entry was preceded, where
the schema checks bodies, by a request of the same key with the same body and
encoding, every request answered from the cache would have passed the checks of
its route.
-/
theorem hits_validated (env : Env) (leaf : Leaf) (requestIdHeader : String)
    (hform : env.formUrlencoded "" = []) (es : List Event)
    (hseen : Transition.Along (LeafState.step env leaf requestIdHeader)
      (BodySeen env leaf) LeafState.init es) :
    Transition.Along (LeafState.step env leaf requestIdHeader)
      (HitValidated env leaf) LeafState.init es :=
  hseen.of_invariant (I := Traced env leaf)
    (fun _ _ _ h _ hstep => h.step hstep)
    (fun _ _ _ h hbody _ => h.hitValidated hform hbody) traced_init

end Safety

/-- A cached route whose schema wants a JSON body. -/
def cachedLeaf : Leaf :=
  { plainLeaf with
    schema := some { body := some fun _ => [], query := none, params := none }
    cache := some { ttl := 1000, vary := [], maxEntries := 16, maxBodyBytes := 1024 } }

/-- A GET of `/` with the given header lines and frames. -/
def get (header : HeaderMap) (events : List BodyEvent) : Request :=
  { post header events with
    method := "GET"
    methodLine := by decide }

/-- A GET with the body `{}`. -/
def getBraces : Request := get [("content-length", [50])] [.data [123, 125]]

def okResponse : Cache.JsResponse :=
  { status := some 200, headers := none, body := none, streamed := none }

/-- The response to `getBraces` is stored. -/
def storing : List Event := [.arrive getBraces, .respond 0 okResponse 0]

theorem hits_validated_get :
    ∃ s hit, Transition.run (LeafState.step sampleEnv cachedLeaf "x-request-id")
        LeafState.init storing = some s ∧
      s.outcome sampleEnv cachedLeaf getBraces = .cached hit ∧
      Passes sampleEnv cachedLeaf getBraces := by
  have hseen : Transition.Along (LeafState.step sampleEnv cachedLeaf "x-request-id")
      (BodySeen sampleEnv cachedLeaf) LeafState.init (storing ++ [.arrive getBraces]) := by
    refine (Transition.along_cons_of_eq rfl).2 ⟨?_, (Transition.along_cons_of_eq rfl).2
      ⟨trivial, (Transition.along_cons_of_eq rfl).2 ⟨?_, trivial⟩⟩⟩
    · intro k _ hlive
      cases hlive
    · intro k hk _ _
      refine ⟨_, List.mem_singleton_self _, hk, rfl, fun _ => ⟨?_, rfl, rfl⟩⟩
      simp [Clean, getBraces, get, post]
  have hsafe := hits_validated sampleEnv cachedLeaf "x-request-id" rfl _ hseen
  refine ⟨_, _, rfl, rfl, ?_⟩
  have hlast := (((hsafe _ rfl).2 _ rfl).2 _ rfl).1
  exact hlast _ rfl

/-- A second GET without a body is answered from the cache; on its own it would
have been refused. -/
theorem hit_skips_validation :
    ¬ ∀ (env : Env) (leaf : Leaf) (requestIdHeader : String) (es : List Event),
        env.formUrlencoded "" = [] →
        Transition.Along (LeafState.step env leaf requestIdHeader)
          (HitValidated env leaf) LeafState.init es := by
  intro hall
  have hsafe := hall sampleEnv cachedLeaf "x-request-id"
    (storing ++ [.arrive (get [] [])]) rfl
  have hpasses := (((hsafe _ rfl).2 _ rfl).2 _ rfl).1 _ rfl
  obtain ⟨_, bodies, validated, _, hbodies, hvalid⟩ := (passes_iff.1 hpasses).checks
  obtain rfl : (none, none) = bodies := Except.ok.inj hbodies
  cases hvalid

end Dispatch
end OxideHttp
