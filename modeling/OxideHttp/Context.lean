import OxideHttp.Http

/-!
# The context `c` (`src/js/context.ts`)

The response side of the context: the mutators that user code calls, the return
value of a handler, the default error response, and the reduction to the response
that crosses to Rust.  A JavaScript number that is a status is an `Int`; the source
of a streamed body is known by a number.

What a context says to the client is its `View`.  Mutators act on the view alone
(`view_apply`), most leave it unchanged once the context is settled
(`apply_guarded`), and the response is read from it (`buildNativeResponse_view`).
-/

namespace OxideHttp
namespace Context

/-- What user code throws. -/
inductive Thrown where
  /-- an `HttpError` -/
  | http (status : Int) (message : String)
  | other
  deriving DecidableEq, Repr

/-! ## Response headers -/

/-- `ResHeaders`: the values of each name, in order of insertion. -/
abbrev ResHeaders := List (String × List String)

def lowerName (name : String) : String := String.ofList (lower name.toList)

namespace ResHeaders

/-- `Map.get`. -/
def values (key : String) : ResHeaders → Option (List String)
  | [] => none
  | e :: h => if e.1 = key then some e.2 else values key h

/-- `Map.set`: an old key keeps its place. -/
def put (key : String) (vs : List String) : ResHeaders → ResHeaders
  | [] => [(key, vs)]
  | e :: h => if e.1 = key then (key, vs) :: h else e :: put key vs h

def set (h : ResHeaders) (name value : String) : ResHeaders :=
  h.put (lowerName name) [value]

def append (h : ResHeaders) (name value : String) : ResHeaders :=
  h.put (lowerName name) ((h.values (lowerName name)).getD [] ++ [value])

def get (h : ResHeaders) (name : String) : Option String :=
  (h.values (lowerName name)).bind List.head?

def delete (h : ResHeaders) (name : String) : ResHeaders :=
  h.filter fun e => e.1 != lowerName name

def toPairs (h : ResHeaders) : List KvPair :=
  h.flatMap fun e => e.2.map fun v => { key := e.1, value := v }

theorem values_put (h : ResHeaders) (key k : String) (vs : List String) :
    (h.put key vs).values k = if key = k then some vs else h.values k := by
  induction h with
  | nil => rfl
  | cons e h ih =>
      by_cases he : e.1 = key
      · subst he
        by_cases hk : e.1 = k <;> simp [put, values, hk]
      · by_cases hek : e.1 = k
        · have hk : key ≠ k := fun hk => he (hek.trans hk.symm)
          rw [put, if_neg he, values, if_pos hek, if_neg hk, values, if_pos hek]
        · simp [put, values, he, hek, ih]

theorem values_delete (h : ResHeaders) (name k : String) (hk : lowerName name ≠ k) :
    (h.delete name).values k = h.values k := by
  induction h with
  | nil => rfl
  | cons e h ih =>
      rw [delete] at ih ⊢
      by_cases he : e.1 = lowerName name
      · have hek : e.1 ≠ k := fun hek => hk (he.symm.trans hek)
        rw [List.filter_cons_of_neg (by simpa using he), ih, values, if_neg hek]
      · rw [List.filter_cons_of_pos (by simpa using he), values, values, ih]

end ResHeaders

/-- A method of `c.res.headers`. -/
inductive HeaderOp where
  | set (name value : String)
  | append (name value : String)
  | delete (name : String)
  deriving DecidableEq, Repr

def HeaderOp.name : HeaderOp → String
  | .set name _ | .append name _ | .delete name => name

def HeaderOp.apply : HeaderOp → ResHeaders → ResHeaders
  | .set name value, h => h.set name value
  | .append name value, h => h.append name value
  | .delete name, h => h.delete name

theorem ResHeaders.values_delete_self (h : ResHeaders) (name : String) :
    (h.delete name).values (lowerName name) = none := by
  induction h with
  | nil => rfl
  | cons e h ih =>
      rw [delete] at ih ⊢
      by_cases he : e.1 = lowerName name
      · rw [List.filter_cons_of_neg (by simpa using he), ih]
      · rw [List.filter_cons_of_pos (by simpa using he), values, if_neg he, ih]

/-- The values of a header after a method of its name. -/
theorem HeaderOp.values_apply_self (o : HeaderOp) (h h' : ResHeaders)
    (hsame : h.values (lowerName o.name) = h'.values (lowerName o.name)) :
    (o.apply h).values (lowerName o.name) = (o.apply h').values (lowerName o.name) := by
  cases o with
  | set name value =>
      exact ((ResHeaders.values_put ..).trans (if_pos rfl)).trans
        ((ResHeaders.values_put ..).trans (if_pos rfl)).symm
  | append name value =>
      simp only [HeaderOp.name] at hsame
      simp only [HeaderOp.apply, HeaderOp.name, ResHeaders.append, ResHeaders.values_put,
        if_true, hsame]
  | delete name =>
      exact (ResHeaders.values_delete_self h name).trans
        (ResHeaders.values_delete_self h' name).symm

/-- A header of another name keeps its values. -/
theorem HeaderOp.values_apply (o : HeaderOp) (h : ResHeaders) {k : String}
    (hk : lowerName o.name ≠ k) : (o.apply h).values k = h.values k := by
  cases o with
  | set name value =>
      exact (ResHeaders.values_put ..).trans (if_neg hk)
  | append name value =>
      exact (ResHeaders.values_put ..).trans (if_neg hk)
  | delete name => exact ResHeaders.values_delete h name k hk

/-! ## The mutators -/

/-- The fields of `OxideContext` and `OxideResponse` that the dispatcher reads and
writes. -/
structure Ctx where
  /-- `res.status` -/
  status : Option Int
  /-- `res.headers` -/
  headers : ResHeaders
  /-- `res.sent` -/
  sent : Bool
  aborted : Bool
  error : Option Thrown
  body : Option String
  stream : Option Nat
  finalized : Bool
  settled : Bool
  deriving DecidableEq, Repr

def contentType : String := "content-type"

def ctJson : String := "application/json; charset=utf-8"

def ctText : String := "text/plain; charset=utf-8"

/-- `buildContext`. -/
def Ctx.build (requestIdHeader requestId : String) : Ctx :=
  { status := none
    headers := ResHeaders.set [] requestIdHeader requestId
    sent := false
    aborted := false
    error := none
    body := none
    stream := none
    finalized := false
    settled := false }

/-- What `JSON.stringify` does with a value. -/
abbrev Stringified := Except Thrown (Option String)

namespace Ctx

/-- A mutator: `after`, unless `_settled` is set. -/
def mutate (c after : Ctx) : Ctx := if c.settled then c else after

/-- `if (status != null) this.res.status = status`. -/
def setStatus (c : Ctx) (status : Option Int) : Ctx :=
  { c with status := status.or c.status }

def setHeader (c : Ctx) (name value : String) : Ctx :=
  { c with headers := c.headers.set name value }

/-- `json`; an exception of `JSON.stringify` leaves it half done. -/
def json (c : Ctx) (value : Stringified) (status : Option Int) : Ctx :=
  c.mutate
    (match value with
      | .error _ => c.setHeader contentType ctJson
      | .ok body =>
          { (c.setHeader contentType ctJson).setStatus status with
            body := body, stream := none, finalized := true })

def text (c : Ctx) (value : String) (status : Option Int) : Ctx :=
  c.mutate
    { (c.setHeader contentType ctText).setStatus status with
      body := some value, stream := none, finalized := true }

/-- `body` on a stream source. -/
def bodyStream (c : Ctx) (source : Nat) (status : Option Int) : Ctx :=
  c.mutate
    { c.setStatus status with body := none, stream := some source, finalized := true }

/-- `body` on a string or nothing. -/
def bodyString (c : Ctx) (data : Option String) (status : Option Int) : Ctx :=
  c.mutate { c.setStatus status with body := data, stream := none, finalized := true }

end Ctx

/-- One access of user code to the response. -/
inductive Op where
  | status (code : Int)
  | header (name value : String)
  | cookie (line : String)
  | json (value : Stringified) (status : Option Int)
  | text (value : String) (status : Option Int)
  | bodyStream (source : Nat) (status : Option Int)
  | bodyString (data : Option String) (status : Option Int)
  /-- a direct write of `c.res.status` -/
  | resStatus (status : Option Int)
  /-- a method of `c.res.headers` -/
  | resHeaders (o : HeaderOp)
  deriving Repr

def Op.apply (c : Ctx) : Op → Ctx
  | .status code => c.mutate { c with status := some code }
  | .header name value => c.mutate (c.setHeader name value)
  | .cookie line => c.mutate { c with headers := c.headers.append "set-cookie" line }
  | .json value code => c.json value code
  | .text value code => c.text value code
  | .bodyStream source code => c.bodyStream source code
  | .bodyString data code => c.bodyString data code
  | .resStatus code => { c with status := code }
  | .resHeaders o => { c with headers := o.apply c.headers }

/-- The value that a handler returns. -/
inductive Value where
  /-- `null` or `undefined` -/
  | nothing
  /-- `c` itself -/
  | context
  | string (s : String)
  | stream (source : Nat)
  /-- any other value, with what `JSON.stringify` makes of it -/
  | json (value : Stringified)
  deriving Repr

/-- The value makes a response. -/
def Value.isResponse : Value → Bool
  | .nothing | .context => false
  | .string _ | .stream _ | .json _ => true

/-- `applyReturnValue`, with the exception that it throws. -/
def applyReturnValue (c : Ctx) (v : Value) : Ctx × Option Thrown :=
  if c.finalized then (c, none)
  else match v with
    | .nothing | .context => (c, none)
    | .string s => (c.text s none, none)
    | .stream source => (c.bodyStream source none, none)
    | .json value =>
        (c.json value none,
          match value with
          | .error e => if c.settled then none else some e
          | .ok _ => none)

/-- The status and the text of the default response to an error. -/
def Thrown.status : Thrown → Int
  | .http status _ => status
  | .other => 500

def Thrown.text : Thrown → String
  | .http _ message => if message = "" then "Error" else message
  | .other => "Internal Server Error"

/-- `defaultError`. -/
def defaultError (c : Ctx) (err : Thrown) : Ctx := c.text err.text (some err.status)

/-! ## The response that crosses to Rust -/

/-- What `JSON.parse` returns; the fields of an object in their order. -/
inductive Json where
  | object (fields : List (String × Json))
  /-- an array, a string, a number, a boolean or `null` -/
  | plain (text : String)

/-- The JSON library. -/
structure JsonLib where
  parse : String → Option Json
  stringify : Json → String

/-- `ResponseStrip`: the properties that the response schema of a status declares. -/
abbrev ResponseStrip := Int → Option (List String)

/-- `out[k] = src[k]` for the declared properties; `__proto__` never becomes one. -/
def keepDeclared (props : List String) (fields : List (String × Json)) :
    List (String × Json) :=
  fields.filter fun f => props.contains f.1 && f.1 != "__proto__"

/-- `stripResponse`. -/
def stripResponse (lib : JsonLib) (strip : Option ResponseStrip) (status : Int)
    (contentTypes : Option String) (body : Option String) : Option String :=
  match strip.bind fun s => s status, body with
  | some props, some text =>
      if containsText "application/json" (contentTypes.getD "").toList then
        match lib.parse text with
        | some (.object fields) => some (lib.stringify (.object (keepDeclared props fields)))
        | _ => some text
      else some text
  | _, _ => body

/-- `NativeResponse`; a streamed one comes with the source that the pump reads. -/
structure NativeResponse where
  status : Int
  headers : List KvPair
  body : Option String
  streamed : Option Nat
  deriving DecidableEq, Repr

/-- `buildNativeResponse`: the response, and what it does to the context. -/
def buildNativeResponse (lib : JsonLib) (strip : Option ResponseStrip) (c : Ctx) :
    NativeResponse :=
  let status := c.status.getD 200
  match c.stream with
  | some source =>
      { status := status, headers := c.headers.toPairs, body := none,
        streamed := some source }
  | none =>
      { status := status
        headers := c.headers.toPairs
        body := stripResponse lib strip status (c.headers.get contentType) c.body
        streamed := none }

@[simp] theorem response_status (lib : JsonLib) (strip : Option ResponseStrip) (c : Ctx) :
    (buildNativeResponse lib strip c).status = c.status.getD 200 := by
  unfold buildNativeResponse
  split <;> rfl

/-- `c._settled = true; c.res.sent = true`. -/
def Ctx.send (c : Ctx) : Ctx := { c with settled := true, sent := true }

/-! ## Views -/

/-- The part of a context that decides the status and the body of the response. -/
structure View where
  status : Option Int
  contentTypes : Option (List String)
  body : Option String
  stream : Option Nat
  finalized : Bool
  settled : Bool
  deriving DecidableEq, Repr

def Ctx.view (c : Ctx) : View :=
  { status := c.status
    contentTypes := c.headers.values contentType
    body := c.body
    stream := c.stream
    finalized := c.finalized
    settled := c.settled }

/-- A guarded access does nothing once the context is settled. -/
def Op.guarded : Op → Bool
  | .resStatus _ | .resHeaders _ => false
  | _ => true

/-- An access that may change the view of an open context. -/
def Op.shows : Op → Bool
  | .header name _ => lowerName name == contentType
  | .cookie _ => false
  | .resHeaders o => lowerName o.name == contentType
  | _ => true

section Views

variable {c d : Ctx}

theorem mutate_settled {after : Ctx} (hc : c.settled = true) : c.mutate after = c := by
  simp [Ctx.mutate, hc]

theorem apply_guarded {o : Op} (ho : o.guarded = true) (hc : c.settled = true) :
    o.apply c = c := by
  cases o with
  | resStatus | resHeaders => cases ho
  | status | header | cookie | json | text | bodyStream | bodyString =>
      exact mutate_settled hc

theorem mutate_keeps {after : Ctx} (h : after.settled = c.settled) :
    (c.mutate after).settled = c.settled := by
  unfold Ctx.mutate
  split
  case isTrue => rfl
  case isFalse => exact h

@[simp] theorem text_settled (value : String) (status : Option Int) :
    (c.text value status).settled = c.settled := mutate_keeps rfl

@[simp] theorem defaultError_settled (err : Thrown) :
    (defaultError c err).settled = c.settled := mutate_keeps rfl

/-- No access of user code sets or clears `_settled`. -/
@[simp] theorem apply_settled (o : Op) : (o.apply c).settled = c.settled := by
  cases o with
  | json value status => cases value <;> exact mutate_keeps rfl
  | resStatus | resHeaders => rfl
  | status | header | cookie | text | bodyStream | bodyString => exact mutate_keeps rfl

@[simp] theorem applyReturnValue_settled (v : Value) :
    (applyReturnValue c v).1.settled = c.settled := by
  unfold applyReturnValue
  split
  case isTrue => rfl
  case isFalse =>
    cases v with
    | nothing | context => rfl
    | string s => exact mutate_keeps rfl
    | stream source => exact mutate_keeps rfl
    | json value => exact apply_settled (.json value none)

/-- No access of user code clears `_finalized`. -/
theorem apply_finalized (o : Op) (hc : c.finalized = true) : (o.apply c).finalized = true := by
  have hmutate : ∀ after : Ctx, after.finalized = true → (c.mutate after).finalized = true := by
    intro after hafter
    unfold Ctx.mutate
    split
    case isTrue => exact hc
    case isFalse => exact hafter
  cases o with
  | json value status =>
      cases value with
      | error e => exact hmutate _ hc
      | ok body => exact hmutate _ rfl
  | resStatus | resHeaders => exact hc
  | status | header | cookie => exact hmutate _ hc
  | text | bodyStream | bodyString => exact hmutate _ rfl

theorem defaultError_finalized (err : Thrown) (hc : c.finalized = true) :
    (defaultError c err).finalized = true := apply_finalized (.text err.text _) hc

theorem view_defaultError_of_settled (err : Thrown) (hc : c.settled = true) :
    (defaultError c err).view = c.view := congrArg Ctx.view (mutate_settled hc)

theorem applyReturnValue_of_settled (v : Value) (hc : c.settled = true) :
    (applyReturnValue c v).1 = c := by
  unfold applyReturnValue
  split
  case isTrue => rfl
  case isFalse =>
    cases v with
    | nothing | context => rfl
    | string | stream | json => exact mutate_settled hc

/-- A value that is no response, or comes too late, changes nothing. -/
theorem applyReturnValue_silent {v : Value} (h : c.finalized = true ∨ v.isResponse = false) :
    applyReturnValue c v = (c, none) := by
  unfold applyReturnValue
  split
  case isTrue => rfl
  case isFalse hopen =>
    have hv := h.resolve_left hopen
    cases v with
    | nothing | context => rfl
    | string | stream | json => cases hv

theorem view_eq_iff :
    c.view = d.view ↔ c.status = d.status ∧
      c.headers.values contentType = d.headers.values contentType ∧ c.body = d.body ∧
        c.stream = d.stream ∧ c.finalized = d.finalized ∧ c.settled = d.settled := by
  simp [Ctx.view]

theorem settled_of_view (h : c.view = d.view) : c.settled = d.settled :=
  congrArg View.settled h

theorem finalized_of_view (h : c.view = d.view) : c.finalized = d.finalized :=
  congrArg View.finalized h

theorem view_mutate_hidden {after : Ctx} (h : after.view = c.view) :
    (c.mutate after).view = c.view := by
  unfold Ctx.mutate
  split
  case isTrue => rfl
  case isFalse => exact h

/-- Headers other than `content-type` do not show. -/
theorem view_apply_hidden {o : Op} (ho : o.shows = false) : (o.apply c).view = c.view := by
  have hheader : ∀ h : HeaderOp, lowerName h.name ≠ contentType →
      ({ c with headers := h.apply c.headers } : Ctx).view = c.view := by
    intro h hname
    simp [Ctx.view, HeaderOp.values_apply h _ hname]
  cases o with
  | header name value =>
      exact view_mutate_hidden
        (hheader (.set name value) (by simpa [Op.shows, HeaderOp.name] using ho))
  | cookie line =>
      have hname : lowerName "set-cookie" ≠ contentType := by decide
      exact view_mutate_hidden (hheader (.append "set-cookie" line) hname)
  | resHeaders h => exact hheader h (by simpa [Op.shows] using ho)
  | status | json | text | bodyStream | bodyString | resStatus => cases ho

theorem view_mutate {c' d' : Ctx} (h : c.view = d.view) (h' : c'.view = d'.view) :
    (c.mutate c').view = (d.mutate d').view := by
  unfold Ctx.mutate
  rw [settled_of_view h]
  split
  case isTrue => exact h
  case isFalse => exact h'

theorem view_headers (o : HeaderOp) (h : c.view = d.view) :
    ({ c with headers := o.apply c.headers } : Ctx).view =
      ({ d with headers := o.apply d.headers } : Ctx).view := by
  obtain ⟨hstatus, htypes, hbody, hstream, hfinal, hsettled⟩ := view_eq_iff.1 h
  refine view_eq_iff.2 ⟨hstatus, ?_, hbody, hstream, hfinal, hsettled⟩
  by_cases hname : lowerName o.name = contentType
  · rw [← hname] at htypes ⊢
    exact o.values_apply_self c.headers d.headers htypes
  · exact (o.values_apply c.headers hname).trans
      (htypes.trans (o.values_apply d.headers hname).symm)

/-- A body and an optional status on top of equal views. -/
theorem view_finalize (h : c.view = d.view) (status : Option Int) (body : Option String)
    (stream : Option Nat) :
    ({ c.setStatus status with body := body, stream := stream, finalized := true } :
        Ctx).view =
      ({ d.setStatus status with body := body, stream := stream, finalized := true } :
        Ctx).view := by
  obtain ⟨hstatus, htypes, _, _, _, hsettled⟩ := view_eq_iff.1 h
  exact view_eq_iff.2 ⟨congrArg status.or hstatus, htypes, rfl, rfl, rfl, hsettled⟩

theorem view_text (value : String) (status : Option Int) (h : c.view = d.view) :
    (c.text value status).view = (d.text value status).view :=
  view_mutate h (view_finalize (view_headers (.set contentType ctText) h) status _ _)

/-- The view after an access depends on the view before it alone. -/
theorem view_apply (o : Op) (h : c.view = d.view) : (o.apply c).view = (o.apply d).view := by
  obtain ⟨hstatus, htypes, hbody, hstream, hfinal, hsettled⟩ := view_eq_iff.1 h
  cases o with
  | status code =>
      exact view_mutate h (view_eq_iff.2 ⟨rfl, htypes, hbody, hstream, hfinal, hsettled⟩)
  | header name value => exact view_mutate h (view_headers (.set name value) h)
  | cookie line => exact view_mutate h (view_headers (.append "set-cookie" line) h)
  | json value status =>
      have hheader := view_headers (.set contentType ctJson) h
      cases value with
      | error e => exact view_mutate h hheader
      | ok body => exact view_mutate h (view_finalize hheader status body none)
  | text value status => exact view_text value status h
  | bodyStream source status => exact view_mutate h (view_finalize h status _ _)
  | bodyString data status => exact view_mutate h (view_finalize h status _ _)
  | resStatus status => exact view_eq_iff.2 ⟨rfl, htypes, hbody, hstream, hfinal, hsettled⟩
  | resHeaders o => exact view_headers o h

/-- The status and the body of the response are read from the view. -/
theorem buildNativeResponse_view (lib : JsonLib) (strip : Option ResponseStrip)
    (h : c.view = d.view) :
    (buildNativeResponse lib strip c).status = (buildNativeResponse lib strip d).status ∧
      (buildNativeResponse lib strip c).body = (buildNativeResponse lib strip d).body ∧
      (buildNativeResponse lib strip c).streamed =
        (buildNativeResponse lib strip d).streamed := by
  obtain ⟨hstatus, htypes, hbody, hstream, _, _⟩ := view_eq_iff.1 h
  have htype : c.headers.get contentType = d.headers.get contentType := by
    have hkey : lowerName contentType = contentType := by decide
    simp only [ResHeaders.get, hkey, htypes]
  unfold buildNativeResponse
  rw [hstatus, hstream, hbody, htype]
  cases d.stream <;> exact ⟨rfl, rfl, rfl⟩

end Views

end Context
end OxideHttp
