import OxideHttp.Dispatch.CacheReplay

/-!
# Responses on their way to hyper (`src/server.rs`)

What the server hands to hyper: the answer of a handler, an entry of the cache, or a
response of its own.  Which headers the builder accepts is a parameter, as it is for
`cached_response`.

Results.
* `misframed_buildResponse`, `misframed_cachedResponse`: when the length that a response declares
  is not that of its body.
-/

namespace OxideHttp
namespace Reply

open Dispatch

/-- `ResBody`: a `Full`, or a `ChannelBody` whose length nobody knows yet. -/
inductive ResBody where
  | full (bytes : Bytes)
  | channel
  deriving DecidableEq, Repr

/-- `Response<ResBody>`. -/
structure Response where
  status : Nat
  headers : List (String × String)
  body : ResBody
  deriving DecidableEq, Repr

/-- The length of the body, where it is known. -/
def ResBody.length : ResBody → Option Nat
  | .full bytes => some bytes.length
  | .channel => none

/-- `empty`. -/
def empty : ResBody := .full []

/-- `full`, `full_owned`. -/
def full (text : String) : ResBody := .full text.toUTF8.toList

/-- `status_text`. -/
def statusText (code : Nat) (text : String) : Response := ⟨code, [], full text⟩

/-- The builder of a response, `none` after a status or a header that it refused. -/
abbrev Builder := Option (Nat × List (String × String))

def hasLength (headers : List (String × String)) : Bool :=
  headers.any fun kv => kv.1 == "content-length"

/-- The `content-length` of a response to HEAD, unless there is one. -/
def withLength (headers : List (String × String)) (len : Nat) : List (String × String) :=
  if hasLength headers then headers else headers ++ [("content-length", toString len)]

/-- `builder_or_500`. -/
def builderOr500 (b : Builder) (body : ResBody) : Response :=
  match b with
  | some r => ⟨r.1, r.2, body⟩
  | none => statusText 500 "Internal Server Error"

section Build

-- `str::to_lowercase`, which is what a `HeaderMap` does to names, and the headers that it takes
variable (lowercase : String → String) (validHeader : String × String → Bool)

/-- `Response::builder` with a status and these headers. -/
def builder (status : Nat) (pairs : List (String × String)) : Builder :=
  if 100 ≤ status ∧ status < 1000 ∧ pairs.all validHeader = true then
    some (status, pairs.map fun kv => (lowercase kv.1, kv.2))
  else none

/-- The builder after the status and the headers of a handler. -/
def started (res : Cache.JsResponse) : Builder :=
  builder lowercase validHeader (res.status.getD 200)
    ((res.headers.getD []).map fun kv => (kv.key, kv.value))

/-- A response of the server itself; the names of its headers are in lower case. -/
def ownResponse (status : Nat) (headers : List (String × String)) (body : ResBody) : Response :=
  builderOr500 (builder id validHeader status headers) body

/-- `build_response`. -/
def buildResponse (res : Cache.JsResponse) (head : Bool) : Response :=
  let b := started lowercase validHeader res
  let streamed := res.streamed.getD false
  if head then
    let len := (res.body.map List.length).getD 0
    builderOr500 (if streamed then b else b.map fun r => (r.1, withLength r.2 len)) empty
  else if streamed then builderOr500 b .channel
  else builderOr500 b (.full (res.body.getD []))

/-- What `cached_response` hands over. -/
def ofServed (served : Served) : Response := ⟨served.status, served.headers, .full served.body⟩

/-- The hit that an entry of this response gives. -/
def hitOf (requestIdHeader : String) (res : Cache.JsResponse) : Cache.Hit :=
  { status := res.status.getD 200
    headers := Cache.replayHeaders lowercase requestIdHeader (res.headers.getD [])
    body := res.body.getD [] }

/-- No header of the handler is a `content-length`. -/
def NoLength (res : Cache.JsResponse) : Prop :=
  ∀ kv ∈ res.headers.getD [], lowercase kv.key ≠ "content-length"

instance (res : Cache.JsResponse) : Decidable (NoLength lowercase res) :=
  inferInstanceAs (Decidable (∀ kv ∈ res.headers.getD [], lowercase kv.key ≠ "content-length"))

end Build

/-! ## The headers of one name -/

/-- The values of the headers of this name. -/
def valuesOf (name : String) (headers : List (String × String)) : List String :=
  (headers.filter fun kv => kv.1 == name).map Prod.snd

theorem valuesOf_append (name : String) (hs hs' : List (String × String)) :
    valuesOf name (hs ++ hs') = valuesOf name hs ++ valuesOf name hs' := by
  simp [valuesOf]

theorem valuesOf_eq_nil {name : String} {headers : List (String × String)} :
    valuesOf name headers = [] ↔ ∀ kv ∈ headers, kv.1 ≠ name := by
  simp [valuesOf, List.filter_eq_nil_iff]

/-! ## Content lengths -/

/-- The values of the `content-length` headers. -/
def lengths (headers : List (String × String)) : List String :=
  valuesOf "content-length" headers

/-- A `content-length` that is not the length of the body. -/
def Response.Misframed (r : Response) : Prop :=
  ∃ v ∈ lengths r.headers, r.body.length.map toString ≠ some v

instance (r : Response) : Decidable r.Misframed :=
  inferInstanceAs (Decidable (∃ v ∈ lengths r.headers, r.body.length.map toString ≠ some v))

theorem lengths_withLength {headers : List (String × String)} (h : lengths headers = [])
    (len : Nat) : lengths (withLength headers len) = [toString len] := by
  have hno : hasLength headers = false := by
    rw [lengths, valuesOf_eq_nil] at h
    simpa [hasLength] using h
  rw [withLength, if_neg (by simp [hno]), lengths, valuesOf_append, ← lengths, h]
  rfl

theorem toString_inj {m n : Nat} : toString m = toString n ↔ m = n := by
  refine ⟨fun h => ?_, congrArg toString⟩
  rw [Nat.toString_eq_ofList_toDigits, Nat.toString_eq_ofList_toDigits] at h
  have hdigits := String.ofList_injective h
  rw [← Nat.ofDigitChars_toDigits (n := m) (b := 10) (by decide) (by decide), hdigits,
    Nat.ofDigitChars_toDigits (by decide) (by decide)]

/-- The one length of an empty body is wrong unless it is zero. -/
theorem misframed_empty {status len : Nat} {headers : List (String × String)}
    (h : lengths headers = [toString len]) :
    (⟨status, headers, empty⟩ : Response).Misframed ↔ len ≠ 0 := by
  simp only [Response.Misframed, h, List.mem_singleton, exists_eq_left, empty, ResBody.length,
    List.length_nil, Option.map_some, ne_eq, Option.some.injEq, toString_inj]
  rw [eq_comm]

theorem not_misframed {r : Response} (h : lengths r.headers = []) : ¬ r.Misframed := by
  rintro ⟨v, hv, -⟩
  rw [h] at hv
  cases hv

variable {lowercase : String → String} {validHeader : String × String → Bool}

theorem started_headers {res : Cache.JsResponse} {r : Nat × List (String × String)}
    (h : started lowercase validHeader res = some r) :
    r.2 = (res.headers.getD []).map fun kv => (lowercase kv.key, kv.value) := by
  rw [started, builder] at h
  split at h
  case isTrue =>
    obtain rfl := Option.some.inj h
    simp
  case isFalse => cases h

theorem lengths_started {res : Cache.JsResponse} {r : Nat × List (String × String)}
    (h : started lowercase validHeader res = some r) (hno : NoLength lowercase res) :
    lengths r.2 = [] := by
  rw [started_headers h, lengths, valuesOf_eq_nil]
  intro kv hkv
  obtain ⟨pair, hpair, rfl⟩ := List.mem_map.1 hkv
  exact hno pair hpair

/-- A response of a handler that set no `content-length` is misframed for HEAD alone, by
the length of the body that is not sent. -/
theorem misframed_buildResponse {res : Cache.JsResponse} (hno : NoLength lowercase res)
    (head : Bool) :
    (buildResponse lowercase validHeader res head).Misframed ↔
      head = true ∧ (started lowercase validHeader res).isSome = true ∧
        res.streamed.getD false = false ∧ res.body.getD [] ≠ [] := by
  cases hb : started lowercase validHeader res with
  | none =>
      refine iff_of_false (not_misframed ?_) (by simp)
      simp only [buildResponse, hb, Option.map_none, ite_self, builderOr500]
      rfl
  | some r =>
      have hnil := lengths_started hb hno
      cases head with
      | false =>
          refine iff_of_false (not_misframed ?_) (by simp)
          cases hs : res.streamed.getD false <;> simpa [buildResponse, hb, hs, builderOr500]
      | true =>
          cases hs : res.streamed.getD false with
          | true =>
              refine iff_of_false (not_misframed ?_) (by simp)
              simpa [buildResponse, hb, hs, builderOr500]
          | false =>
              have hlen : (res.body.map List.length).getD 0 ≠ 0 ↔ res.body.getD [] ≠ [] := by
                cases res.body <;> simp
              simp only [buildResponse, hb, hs, builderOr500, if_true, Bool.false_eq_true,
                if_false, Option.map_some]
              rw [misframed_empty (lengths_withLength hnil _), hlen]
              simp

/-- The headers of a response from the cache. -/
def replayed (lowercase : String → String) (requestIdHeader id : String)
    (res : Cache.JsResponse) : List (String × String) :=
  Cache.replayHeaders lowercase requestIdHeader (res.headers.getD []) ++
    [(requestIdHeader, id), ("x-cache", "hit")]

theorem lengths_replayed {res : Cache.JsResponse} (hno : NoLength lowercase res)
    (requestIdHeader id : String) :
    lengths (replayed lowercase requestIdHeader id res) =
      if requestIdHeader = "content-length" then [id] else [] := by
  have hnil : lengths (Cache.replayHeaders lowercase requestIdHeader (res.headers.getD [])) =
      [] := by
    rw [lengths, valuesOf_eq_nil]
    intro kv hkv
    obtain ⟨pair, hpair, rfl⟩ := List.mem_map.1 hkv
    exact hno pair (List.mem_filter.1 hpair).1
  rw [replayed, lengths, valuesOf_append, ← lengths, hnil]
  by_cases hid : requestIdHeader = "content-length" <;> simp [valuesOf, hid]

theorem cachedResponse_eq (requestIdHeader id : String) (res : Cache.JsResponse) (head : Bool) :
    ofServed (cachedResponse validHeader requestIdHeader id head
        (hitOf lowercase requestIdHeader res)) =
      let headers := replayed lowercase requestIdHeader id res
      if headers.all validHeader = true then
        if head then
          ⟨res.status.getD 200, withLength headers (res.body.getD []).length, empty⟩
        else ⟨res.status.getD 200, headers, .full (res.body.getD [])⟩
      else statusText 500 "Internal Server Error" := by
  have hheaders : (hitOf lowercase requestIdHeader res).headers ++
      [(requestIdHeader, id), ("x-cache", "hit")] = replayed lowercase requestIdHeader id res := rfl
  dsimp only
  by_cases hvalid : (replayed lowercase requestIdHeader id res).all validHeader = true
  · rw [if_pos hvalid, cachedResponse, hheaders, if_neg (by simp only [hvalid]; decide)]
    cases head <;> rfl
  · rw [if_neg hvalid, cachedResponse, hheaders, if_pos (by simpa only [Bool.not_eq_true',
      Bool.not_eq_true] using hvalid)]
    rfl

/-- A response from the cache declares the length that is not sent to HEAD, unless the
header of the request id is the `content-length` itself. -/
theorem misframed_cachedResponse {res : Cache.JsResponse} (hno : NoLength lowercase res)
    (requestIdHeader id : String) (head : Bool) :
    (ofServed (cachedResponse validHeader requestIdHeader id head
        (hitOf lowercase requestIdHeader res))).Misframed ↔
      (replayed lowercase requestIdHeader id res).all validHeader = true ∧
        if requestIdHeader = "content-length" then
          id ≠ toString (if head then 0 else (res.body.getD []).length)
        else head = true ∧ res.body.getD [] ≠ [] := by
  rw [cachedResponse_eq]
  dsimp only
  by_cases hvalid : (replayed lowercase requestIdHeader id res).all validHeader = true
  case neg =>
    rw [if_neg hvalid]
    exact iff_of_false (not_misframed rfl) (fun h => hvalid h.1)
  case pos =>
    rw [if_pos hvalid, and_iff_right hvalid]
    have hlengths := lengths_replayed hno requestIdHeader id
    by_cases hid : requestIdHeader = "content-length"
    · rw [if_pos hid] at hlengths ⊢
      have hhas : hasLength (replayed lowercase requestIdHeader id res) = true := by
        simp [hasLength, replayed, hid]
      cases head with
      | false => simp [Response.Misframed, hlengths, ResBody.length, eq_comm]
      | true => simp [Response.Misframed, withLength, hhas, hlengths, empty, ResBody.length, eq_comm]
    · rw [if_neg hid] at hlengths ⊢
      cases head with
      | false => exact iff_of_false (not_misframed hlengths) (by simp)
      | true =>
          rw [if_pos rfl, misframed_empty (lengths_withLength hlengths _)]
          simp

end Reply
end OxideHttp
