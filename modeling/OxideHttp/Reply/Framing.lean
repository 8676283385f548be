import OxideHttp.Reply
import OxideHttp.Routing.Methods

/-!
# Framing of responses (`src/server.rs`: `handle_inner`, `route_and_dispatch`)

The method is put in upper case before the request is routed, while hyper decides by the
token of the request line whether the response has a body.

Result: `framing_iff`, the declared length is that of the body for every method but HEAD,
unless auto-HEAD takes another spelling of HEAD.
-/

namespace OxideHttp
namespace Reply

open Dispatch Routing

/-- Where the response to a request that reaches a route comes from. -/
inductive Exit where
  /-- the handler -/
  | fresh
  /-- the cache; the request has this id -/
  | cached (id : String)

/-- The method that the server goes by. -/
def upper (token : Text) : Text := token.map Char.toUpper

section Serve

variable {M : Matchit} (P : ParamsOf) (r : Router M) (hasNotFound : Bool)
  (lowercase : String → String) (validHeader : String × String → Bool) (requestIdHeader : String)

def Exit.respond (exit : Exit) (res : Cache.JsResponse) (head : Bool) : Response :=
  match exit with
  | .fresh => buildResponse lowercase validHeader res head
  | .cached id =>
      ofServed (cachedResponse validHeader requestIdHeader id head
        (hitOf lowercase requestIdHeader res))

/-- The responses of `route_and_dispatch` to a request with this method token.  There is
no cache for the handler of what is not found. -/
def routed (token path : Text) (exit : Exit) (res : Cache.JsResponse) : Response :=
  match r.routeAndDispatch P hasNotFound (upper token) path with
  | .dispatched leaf _ head =>
      if leaf < 0 then buildResponse lowercase validHeader res head
      else exit.respond lowercase validHeader requestIdHeader res head
  | .notFound => statusText 404 "Not Found"
  | .options allow => ownResponse validHeader 204 [("allow", String.ofList allow)] empty
  | .notAllowed allow =>
      ownResponse validHeader 405 [("allow", String.ofList allow)] (full "Method Not Allowed")

/-- The request is served by a GET route as a HEAD request. -/
def AutoHead (token path : Text) : Prop :=
  upper token = headMethod ∧ r.matchRoute P headMethod path = none ∧
    (r.matchRoute P getMethod path).isSome = true

instance (token path : Text) : Decidable (AutoHead P r token path) :=
  inferInstanceAs (Decidable (_ ∧ _ ∧ _))

/-- The response declares a length that it does not have: auto-HEAD leaves out a body that
the server has in full, or the header of the request id is named `content-length`. -/
def Overstated (token path : Text) (exit : Exit) (res : Cache.JsResponse) : Prop :=
  match exit with
  | .fresh =>
      AutoHead P r token path ∧ (started lowercase validHeader res).isSome = true ∧
        res.streamed.getD false = false ∧ res.body.getD [] ≠ []
  | .cached id =>
      (replayed lowercase requestIdHeader id res).all validHeader = true ∧
        if requestIdHeader = "content-length" then
          ((r.matchRoute P (upper token) path).isSome = true ∨ AutoHead P r token path) ∧
            id ≠ toString (if AutoHead P r token path then 0 else (res.body.getD []).length)
        else AutoHead P r token path ∧ res.body.getD [] ≠ []

variable {lowercase} {validHeader}

theorem misframed_respond {exit : Exit} {res : Cache.JsResponse} (hno : NoLength lowercase res)
    (head : Bool) :
    (exit.respond lowercase validHeader requestIdHeader res head).Misframed ↔
      match exit with
      | .fresh =>
          head = true ∧ (started lowercase validHeader res).isSome = true ∧
            res.streamed.getD false = false ∧ res.body.getD [] ≠ []
      | .cached id =>
          (replayed lowercase requestIdHeader id res).all validHeader = true ∧
            if requestIdHeader = "content-length" then
              id ≠ toString (if head then 0 else (res.body.getD []).length)
            else head = true ∧ res.body.getD [] ≠ [] := by
  cases exit with
  | fresh => exact misframed_buildResponse hno head
  | cached id => exact misframed_cachedResponse hno requestIdHeader id head

/-- A 204 or 405 of the router declares no length. -/
theorem lengths_allow (status : Nat) (allow : String) (body : ResBody) :
    lengths (ownResponse validHeader status [("allow", allow)] body).headers = [] := by
  rw [ownResponse, builder]
  split <;> rfl

/-- The leaf of a request that is dispatched. -/
theorem answer_cases (method path : Text) :
    (∃ m, r.matchRoute P method path = some m ∧
        r.routeAndDispatch P hasNotFound method path = .dispatched m.leafId m.params false) ∨
      (∃ m, r.matchRoute P method path = none ∧ method = headMethod ∧
        r.matchRoute P getMethod path = some m ∧
        r.routeAndDispatch P hasNotFound method path = .dispatched m.leafId m.params true) ∨
      (r.matchRoute P method path = none ∧
        ¬ (method = headMethod ∧ (r.matchRoute P getMethod path).isSome = true) ∧
        (r.routeAndDispatch P hasNotFound method path).isRouted = false) := by
  cases hm : r.matchRoute P method path with
  | some m =>
      refine Or.inl ⟨m, rfl, ?_⟩
      rw [Router.routeAndDispatch, hm]
  | none =>
      by_cases hauto : method = headMethod ∧ (r.matchRoute P getMethod path).isSome = true
      · obtain ⟨m, hget⟩ := Option.isSome_iff_exists.1 hauto.2
        refine Or.inr (Or.inl ⟨m, rfl, hauto.1, hget, ?_⟩)
        rw [Router.routeAndDispatch, hm, if_pos hauto.1, hget]
      · refine Or.inr (Or.inr ⟨rfl, hauto, ?_⟩)
        rw [← Bool.not_eq_true, isRouted_iff, hm]
        simpa using hauto

/-- What is answered without a route is framed right. -/
theorem routed_of_not_routed {token path : Text} {exit : Exit} {res : Cache.JsResponse}
    (hno : NoLength lowercase res)
    (h : (r.routeAndDispatch P hasNotFound (upper token) path).isRouted = false) :
    ¬ (routed P r hasNotFound lowercase validHeader requestIdHeader token path exit
        res).Misframed := by
  rw [routed, routeAndDispatch_of_not_routed P r path hasNotFound h]
  split_ifs
  · change ¬ (buildResponse lowercase validHeader res false).Misframed
    rw [misframed_buildResponse hno]
    simp
  · exact not_misframed rfl
  · exact not_misframed (lengths_allow _ _ _)
  · exact not_misframed (lengths_allow _ _ _)

theorem misframed_iff {token path : Text} {exit : Exit} {res : Cache.JsResponse}
    (hno : NoLength lowercase res) :
    (routed P r hasNotFound lowercase validHeader requestIdHeader token path exit
        res).Misframed ↔
      Overstated P r lowercase validHeader requestIdHeader token path exit res := by
  have hauto_iff : AutoHead P r token path ↔ r.matchRoute P (upper token) path = none ∧
      upper token = headMethod ∧ (r.matchRoute P getMethod path).isSome = true := by
    rw [AutoHead, and_left_comm]
    constructor
    · rintro ⟨hm, hhead, hget⟩
      exact ⟨hhead ▸ hm, hhead, hget⟩
    · rintro ⟨hm, hhead, hget⟩
      exact ⟨hhead ▸ hm, hhead, hget⟩
  rcases answer_cases P r hasNotFound (upper token) path with
    ⟨m, hm, hanswer⟩ | ⟨m, hm, hhead, hget, hanswer⟩ | ⟨hm, hno', hrouted⟩
  · have hleaf : ¬ (m.leafId : Int) < 0 := by omega
    have hauto : ¬ AutoHead P r token path := by
      rw [hauto_iff, hm]
      simp
    rw [routed, hanswer]
    simp only [hleaf, if_false]
    rw [misframed_respond requestIdHeader hno]
    cases exit <;> simp [Overstated, hauto, hm]
  · have hleaf : ¬ (m.leafId : Int) < 0 := by omega
    have hauto : AutoHead P r token path := hauto_iff.2 ⟨hm, hhead, by rw [hget]; rfl⟩
    rw [routed, hanswer]
    simp only [hleaf, if_false]
    rw [misframed_respond requestIdHeader hno]
    cases exit <;> simp [Overstated, hauto]
  · have hauto : ¬ AutoHead P r token path := by
      rw [hauto_iff]
      exact fun h => hno' h.2
    refine iff_of_false (routed_of_not_routed P r hasNotFound requestIdHeader hno hrouted) ?_
    cases exit <;> simp [Overstated, hauto, hm]

/-- A declared length that is not that of the body goes with HEAD alone, just when the
request is a HEAD request or nothing is overstated. -/
theorem framing_iff {token path : Text} {exit : Exit} {res : Cache.JsResponse}
    (hno : NoLength lowercase res) :
    ((routed P r hasNotFound lowercase validHeader requestIdHeader token path exit
        res).Misframed → token = headMethod) ↔
      token = headMethod ∨
        ¬ Overstated P r lowercase validHeader requestIdHeader token path exit res := by
  rw [misframed_iff P r hasNotFound requestIdHeader hno]
  tauto

end Serve

/-- `c.text('hello')`. -/
def helloResponse : Cache.JsResponse :=
  { status := none
    headers := some [⟨"content-type", "text/plain"⟩]
    body := some "hello".toUTF8.toList
    streamed := none }

theorem framing_iff_head :
    NoLength id helloResponse ∧
      ((routed (fun _ _ => []) mixedRouter false id (fun _ => true) "x-request-id"
          "HEAD".toList "/y".toList .fresh helloResponse).Misframed →
        "HEAD".toList = headMethod) := by
  have hno : NoLength id helloResponse := by decide
  exact ⟨hno, (framing_iff (fun _ _ => []) mixedRouter false "x-request-id" hno).2 (Or.inl rfl)⟩

/-- A request with the method `head`: the length of a body is declared that is not sent. -/
theorem head_spelled_lower :
    routed (fun _ _ => []) mixedRouter false id (fun _ => true) "x-request-id" "head".toList
        "/y".toList .fresh helloResponse =
      ⟨200, [("content-type", "text/plain"), ("content-length", "5")], .full []⟩ ∧
      (routed (fun _ _ => []) mixedRouter false id (fun _ => true) "x-request-id" "head".toList
        "/y".toList .fresh helloResponse).Misframed ∧
      "head".toList ≠ headMethod := by
  decide +kernel

end Reply
end OxideHttp
