import OxideHttp.Reply

/-!
# CORS (`src/cors.rs`, `src/server.rs`: `apply_cors`, `pairs_response`)

A policy adds headers to the responses for the origins that it allows, and answers
preflight requests itself.

Results.
* `allowed_origin`: for which origins, and with which value, `access-control-allow-origin`
  is sent.
* `vary_where_allowed`: where the headers depend on the origin, `vary: origin` is on the
  responses to the origins that are allowed, and a refused origin gets no CORS header.
-/

namespace OxideHttp
namespace Cors

open Reply

/-- `CorsOptions`. -/
structure CorsOptions where
  origins : List String
  methods : List String
  allowedHeaders : Option (List String)
  exposedHeaders : Option (List String)
  credentials : Bool
  maxAge : Option Int

/-- `Cors`. -/
structure Policy where
  anyOrigin : Bool
  origins : List String
  methods : String
  allowedHeaders : Option String
  exposedHeaders : Option String
  credentials : Bool
  maxAge : Option String
  star : anyOrigin = origins.any (· == "*")

/-- `Cors::new`. -/
def Policy.new (o : CorsOptions) : Policy where
  anyOrigin := o.origins.any (· == "*")
  origins := o.origins
  methods := ", ".intercalate o.methods
  allowedHeaders := o.allowedHeaders.map (", ".intercalate ·)
  exposedHeaders := o.exposedHeaders.map (", ".intercalate ·)
  credentials := o.credentials
  maxAge := o.maxAge.map toString
  star := rfl

def allowOrigin : String := "access-control-allow-origin"

section Headers

variable (c : Policy) (origin : Option String)

/-- `resolve_origin`. -/
def Policy.resolveOrigin : Option String :=
  if c.anyOrigin then if c.credentials then none else some "*"
  else
    match origin with
    | some o => if c.origins.any (· == o) then some o else none
    | none => none

/-- `preflight`. -/
def Policy.preflight (reqHeaders : Option String) : Option (List (String × String)) :=
  (c.resolveOrigin origin).map fun acao =>
    [(allowOrigin, acao), ("access-control-allow-methods", c.methods)] ++
      ((c.allowedHeaders.or reqHeaders).map ("access-control-allow-headers", ·)).toList ++
      (c.maxAge.map ("access-control-max-age", ·)).toList ++
      (if c.credentials then [("access-control-allow-credentials", "true")] else []) ++
      (if c.anyOrigin then [] else [("vary", "origin")])

/-- `actual`. -/
def Policy.actual : List (String × String) :=
  match c.resolveOrigin origin with
  | none => []
  | some acao =>
      [(allowOrigin, acao)] ++
        (if c.credentials then [("access-control-allow-credentials", "true")] else []) ++
        (c.exposedHeaders.map ("access-control-expose-headers", ·)).toList ++
        (if c.anyOrigin then [] else [("vary", "origin")])

end Headers

section Responses

variable (validHeader : String × String → Bool)

/-- `apply_cors`. -/
def applyCors (cors : Option Policy) (origin : Option String) (r : Response) : Response :=
  match cors with
  | none => r
  | some c => { r with headers := r.headers ++ (c.actual origin).filter validHeader }

/-- The response to a preflight request. -/
def preflightResponse (c : Policy) (origin reqHeaders : Option String) : Response :=
  match c.preflight origin reqHeaders with
  | some headers => ownResponse validHeader 204 headers empty
  | none => statusText 403 "Forbidden"

end Responses

/-! ## What a policy sends -/

section Sent

variable {c : Policy} {origin : Option String}

/-- The origins that a policy allows: those that it lists, or all of them. -/
theorem resolveOrigin_eq_some {v : String} :
    c.resolveOrigin origin = some v ↔
      ("*" ∈ c.origins ∧ c.credentials = false ∧ v = "*") ∨
        ("*" ∉ c.origins ∧ origin = some v ∧ v ∈ c.origins) := by
  have hstar : c.anyOrigin = true ↔ "*" ∈ c.origins := by simp [c.star]
  unfold Policy.resolveOrigin
  by_cases hany : c.anyOrigin = true
  · rw [if_pos hany]
    cases hcred : c.credentials <;> simp [hstar.1 hany, eq_comm]
  · rw [if_neg hany]
    have hno := mt hstar.2 hany
    cases origin with
    | none => simp [hno]
    | some o =>
        by_cases ho : o ∈ c.origins
        · simp only [List.any_eq_true, beq_iff_eq, exists_eq_right, if_pos ho, hno,
            Option.some.injEq, false_and, not_false_eq_true, true_and, false_or]
          constructor
          · rintro rfl
            exact ⟨rfl, ho⟩
          · exact fun h => h.1
        · simp only [List.any_eq_true, beq_iff_eq, exists_eq_right, if_neg ho, hno,
            Option.some.injEq, false_and, not_false_eq_true, true_and, false_or]
          refine iff_of_false (by simp) ?_
          rintro ⟨rfl, h⟩
          exact ho h

theorem actual_of_none (h : c.resolveOrigin origin = none) : c.actual origin = [] := by
  rw [Policy.actual, h]

theorem preflight_eq_none (reqHeaders : Option String) :
    c.preflight origin reqHeaders = none ↔ c.resolveOrigin origin = none := by
  rw [Policy.preflight, Option.map_eq_none_iff]

/-- `vary` says that an origin was looked for in a list. -/
theorem vary_mem_actual (h : (c.resolveOrigin origin).isSome = true) :
    ("vary", "origin") ∈ c.actual origin ↔ c.anyOrigin = false := by
  obtain ⟨v, hv⟩ := Option.isSome_iff_exists.1 h
  rw [Policy.actual, hv]
  cases c.anyOrigin <;> cases c.credentials <;> cases c.exposedHeaders <;> simp [allowOrigin]

theorem vary_mem_preflight {reqHeaders : Option String} {headers : List (String × String)}
    (h : c.preflight origin reqHeaders = some headers) :
    ("vary", "origin") ∈ headers ↔ c.anyOrigin = false := by
  obtain ⟨v, -, rfl⟩ := Option.map_eq_some_iff.1 h
  cases c.anyOrigin <;> cases c.credentials <;> cases c.maxAge <;>
    cases c.allowedHeaders.or reqHeaders <;> simp [allowOrigin]

/-- Only a list of origins tells one origin from another. -/
theorem anyOrigin_of_differ {origin' : Option String}
    (h : c.resolveOrigin origin ≠ c.resolveOrigin origin') : c.anyOrigin = false := by
  by_contra hany
  rw [Bool.not_eq_false] at hany
  refine h ?_
  unfold Policy.resolveOrigin
  rw [if_pos hany, if_pos hany]

/-- Every value of `access-control-allow-origin` is what `resolve_origin` gives. -/
theorem mem_actual {v : String} (h : (allowOrigin, v) ∈ c.actual origin) :
    c.resolveOrigin origin = some v := by
  cases hv : c.resolveOrigin origin with
  | none => rw [actual_of_none hv] at h; cases h
  | some w =>
      rw [Policy.actual, hv] at h
      revert h
      cases c.anyOrigin <;> cases c.credentials <;> cases c.exposedHeaders <;>
        simp [allowOrigin, eq_comm]

theorem mem_preflight {reqHeaders : Option String} {headers : List (String × String)} {v : String}
    (h : c.preflight origin reqHeaders = some headers) (hv : (allowOrigin, v) ∈ headers) :
    c.resolveOrigin origin = some v := by
  obtain ⟨w, hw, rfl⟩ := Option.map_eq_some_iff.1 h
  rw [hw]
  revert hv
  cases c.anyOrigin <;> cases c.credentials <;> cases c.maxAge <;>
    cases c.allowedHeaders.or reqHeaders <;> simp [allowOrigin, eq_comm]

/-- `access-control-allow-origin` is sent for an origin that the policy lists, or as `*`
without credentials. -/
theorem allowed_origin {v : String} (h : c.resolveOrigin origin = some v) :
    (origin = some v ∧ v ∈ c.origins) ∨
      (v = "*" ∧ "*" ∈ c.origins ∧ c.credentials = false) := by
  rcases resolveOrigin_eq_some.1 h with ⟨hstar, hcred, rfl⟩ | ⟨-, horigin, hmem⟩
  · exact Or.inr ⟨rfl, hstar, hcred⟩
  · exact Or.inl ⟨horigin, hmem⟩

end Sent

/-! ## Two requests that differ in their origin -/

/-- Where two origins get different headers, the response to an origin that is allowed
carries `vary: origin`, and one that is refused gets no CORS header at all. -/
theorem vary_where_allowed (c : Policy) (origin origin' reqHeaders : Option String)
    (validHeader : String × String → Bool) :
    (c.actual origin ≠ c.actual origin' →
      ∀ o, o = origin ∨ o = origin' →
        ((c.resolveOrigin o).isSome = true → ("vary", "origin") ∈ c.actual o) ∧
        (c.resolveOrigin o = none → c.actual o = [] ∧
          ∀ r, applyCors validHeader (some c) o r = r)) ∧
    (c.preflight origin reqHeaders ≠ c.preflight origin' reqHeaders →
      ∀ o, o = origin ∨ o = origin' →
        (∀ headers, c.preflight o reqHeaders = some headers → ("vary", "origin") ∈ headers) ∧
        (c.preflight o reqHeaders = none →
          preflightResponse validHeader c o reqHeaders = statusText 403 "Forbidden")) ∧
    ∀ o v, ((allowOrigin, v) ∈ c.actual o ∨
        ∃ headers, c.preflight o reqHeaders = some headers ∧ (allowOrigin, v) ∈ headers) →
      (o = some v ∧ v ∈ c.origins) ∨ (v = "*" ∧ "*" ∈ c.origins ∧ c.credentials = false) := by
  refine ⟨fun hdiffer o _ => ?_, fun hdiffer o _ => ?_, fun o v hv => ?_⟩
  · have hany : c.anyOrigin = false :=
      anyOrigin_of_differ fun hsame => hdiffer (by rw [Policy.actual, Policy.actual, hsame])
    refine ⟨fun hsome => (vary_mem_actual hsome).2 hany, fun hnone => ?_⟩
    have hnil := actual_of_none hnone
    refine ⟨hnil, fun r => ?_⟩
    rw [applyCors, hnil, List.filter_nil, List.append_nil]
  · have hany : c.anyOrigin = false :=
      anyOrigin_of_differ fun hsame =>
        hdiffer (by rw [Policy.preflight, Policy.preflight, hsame])
    refine ⟨fun headers hheaders => (vary_mem_preflight hheaders).2 hany, fun hnone => ?_⟩
    rw [preflightResponse, hnone]
  · rcases hv with hv | ⟨headers, hheaders, hv⟩
    · exact allowed_origin (mem_actual hv)
    · exact allowed_origin (mem_preflight hheaders hv)

/-- One origin, listed. -/
def listed : Policy :=
  Policy.new
    { origins := ["https://ok.com"], methods := ["GET"], allowedHeaders := none
      exposedHeaders := none, credentials := false, maxAge := none }

theorem vary_where_allowed_listed :
    ("vary", "origin") ∈ listed.actual (some "https://ok.com") ∧
      listed.actual (some "https://evil.com") = [] := by
  have hdiffer : listed.actual (some "https://ok.com") ≠ listed.actual (some "https://evil.com") := by
    decide
  have hvary := (vary_where_allowed listed (some "https://ok.com") (some "https://evil.com") none
    (fun _ => true)).1 hdiffer
  exact ⟨(hvary _ (Or.inl rfl)).1 (by decide), ((hvary _ (Or.inr rfl)).2 (by decide)).1⟩

/-- The response to an origin that is refused does not say that it depends on the origin. -/
theorem refused_without_vary :
    listed.actual (some "https://ok.com") ≠ listed.actual (some "https://evil.com") ∧
      listed.preflight (some "https://ok.com") none ≠
        listed.preflight (some "https://evil.com") none ∧
      ("vary", "origin") ∉ listed.actual (some "https://evil.com") ∧
      ("vary", "origin") ∉ (applyCors (fun _ => true) (some listed) (some "https://evil.com")
        (statusText 404 "Not Found")).headers ∧
      ("vary", "origin") ∉
        (preflightResponse (fun _ => true) listed (some "https://evil.com") none).headers := by
  decide

end Cors
end OxideHttp
