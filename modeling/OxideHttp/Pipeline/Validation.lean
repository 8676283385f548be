import OxideHttp.Dispatch
import OxideHttp.Pipeline.Gate
import OxideHttp.Routing.Retry

/-!
# Validation (`js/index.ts`: `injectValidation`, `js/context.ts`: `valid`, `js/schema.ts`)

A schema is checked twice.  Rust coerces the query, the params and the body and checks their
structure; then a hook of `preValidation` runs the schemas of valibot over the values that
Rust has accepted, and keeps what they make of them.  The schemas and the JSON of both sides
are libraries: `Lib` stands for them.

Results.
* `rustValid_spec`: what Rust has accepted of a request that reaches JS.
* `runHook_passed`: what is kept when the hook passes.
* `handler_sees_valid`: middleware and handler run only behind both checks, and `valid` gives
  them what came of these.
-/

namespace OxideHttp
namespace Validation

open Schema Transition
open Context (Ctx Op Thrown)
open Dispatch (Env Leaf Request Handoff)
open Pipeline (Config Label RunningAt)
open Routing.Retry (RouteSchema SchemaSource)

/-! ## The hook -/

/-- `VALIDATED_LOCATIONS`. -/
inductive Location where
  | body
  | query
  | params
  deriving DecidableEq, Repr

def Location.text : Location → String
  | .body => "body"
  | .query => "query"
  | .params => "params"

def VALIDATION_ORDER : List Location := [.params, .query, .body]

/-- `ValibotIssue`; the keys of its path are strings already. -/
structure ValibotIssue where
  path : Option (List String)
  message : String
  type : Option String

def valibotIssues (issues : List ValibotIssue) (loc : Location) : List Issue :=
  issues.map fun iss =>
    { location := loc.text
      path := ".".intercalate (iss.path.getD [])
      message := iss.message
      code := iss.type.getD "invalid" }

section Hook

variable {ν J : Type}

def source (S : RouteSchema ν) : Location → Option (SchemaSource ν)
  | .body => S.body
  | .query => S.query
  | .params => S.params

def valibotSchemas (S : RouteSchema ν) (loc : Location) : Option ν :=
  match source S loc with
  | some (.valibot vs) => some vs
  | _ => none

/-- `ValibotParseResult`; an output that is `undefined` is `none`. -/
inductive ParseResult (J : Type) where
  | success (output : Option J)
  | failure (issues : Option (List ValibotIssue))

structure Lib (ν J : Type) where
  /-- `toJsonSchemaString`, and `compile` in Rust -/
  compile : SchemaSource ν → Compiled
  /-- `valibotSafeParse`; the code of a schema may throw -/
  safeParse : ν → Option J → Except Thrown (ParseResult J)
  /-- `JSON.parse`, `none` where it throws -/
  parse : String → Option J
  /-- the value of the engine for a value of Rust -/
  ofValue : Value → J
  /-- `JSON.stringify({ error: 'validation', issues })` -/
  errorText : List Issue → String

/-- The values of the locations, `none` where they are `undefined`. -/
abbrev Values (J : Type) := Location → Option J

variable (lib : Lib ν J) (S : RouteSchema ν)

/-- The schemas of the leaf, as `listen` has them compiled. -/
def Lib.leafSchema : LeafSchema :=
  { body := S.body.map fun src => (lib.compile src).validator
    query := S.query.map lib.compile
    params := S.params.map lib.compile }

/-- `null` stays `undefined`. -/
def Lib.parsed : Option String → Option (Option J)
  | none => some none
  | some text => (lib.parse text).map some

/-- `_rustValid`, `none` where `JSON.parse` throws. -/
def Lib.rustValid (v : Validated) : Option (Values J) :=
  match lib.parsed v.body, lib.parsed v.query, lib.parsed v.params with
  | some body, some query, some params =>
      some fun loc => match loc with
        | .body => body
        | .query => query
        | .params => params
  | _, _, _ => none

/-- How the hook ends. -/
inductive HookEnd where
  | passed
  /-- with the answer 400 -/
  | refused (issues : List Issue)
  | threw (e : Thrown)

/-- The value that a schema is run over; `json` is what `c.req.json()` would give. -/
def raw (rust : Values J) (json : Except Thrown J) (loc : Location) : Except Thrown (Option J) :=
  if loc = .body ∧ rust .body = none then json.map some else .ok (rust loc)

/-- The loop of the hook; `kept` is `c.req._valid`. -/
def Lib.runHook (rust : Option (Values J)) (json : Except Thrown J) :
    List Location → Values J → Values J × HookEnd
  | [], kept => (kept, .passed)
  | loc :: locs, kept =>
      match valibotSchemas S loc with
      | none => Lib.runHook rust json locs kept
      | some vs =>
          match rust.elim (.error .other) fun rust => raw rust json loc with
          | .error e => (kept, .threw e)
          | .ok data =>
              match lib.safeParse vs data with
              | .error e => (kept, .threw e)
              | .ok (.failure issues) =>
                  (kept, .refused (valibotIssues (issues.getD []) loc))
              | .ok (.success output) =>
                  Lib.runHook rust json locs (Function.update kept loc output)

/-- The hook that `injectValidation` makes. -/
def Lib.hook (rust : Option (Values J)) (json : Except Thrown J) : Values J × HookEnd :=
  lib.runHook S rust json VALIDATION_ORDER fun _ => none

/-- `valid`, `none` where `JSON.parse` throws. -/
def valid (rust : Option (Values J)) (kept : Values J) (loc : Location) : Option (Option J) :=
  match kept loc with
  | some v => some (some v)
  | none => rust.map fun rust => rust loc

end Hook

/-! ## What Rust has accepted -/

section Accepted

variable {ν J : Type} (lib : Lib ν J) (S : RouteSchema ν) (env : Env) (leaf : Leaf)
  (req : Request)

/-- Rust has made `v` of a location, and its schema finds no error in it. -/
def Accepted (loc : Location) (src : SchemaSource ν) (v : Value) : Prop :=
  (lib.compile src).validator v = [] ∧
    match loc with
    | .query =>
        v = coercePairs env.serde (Dispatch.parseQuery env req.queryString) (lib.compile src).schema
    | .params => v = coercePairs env.serde (leaf.params req.path) (lib.compile src).schema
    | .body =>
        ∃ buffered plain, Dispatch.bufferBodies env leaf req = .ok (buffered, some plain) ∧
          env.serde.fromSlice plain = .ok v

/-- What the handler reads with `valid`. -/
def Sees (seen : Location → Option (Option J)) (loc : Location) : Prop :=
  match source S loc with
  | none => seen loc = some none
  | some (.json text) =>
      ∃ v, Accepted lib env leaf req loc (.json text) v ∧ seen loc = some (some (lib.ofValue v))
  | some (.valibot vs) =>
      ∃ v output, Accepted lib env leaf req loc (.valibot vs) v ∧
        lib.safeParse vs (some (lib.ofValue v)) = .ok (.success output) ∧
        seen loc = some (some (output.getD (lib.ofValue v)))

/-- The text that Rust hands over for a location. -/
def textAt (v : Validated) : Location → Option String
  | .body => v.body
  | .query => v.query
  | .params => v.params

/-- A location without a schema has no value, and one with a schema has one that `P` admits. -/
def Filled {γ : Type} (P : SchemaSource ν → γ → Prop) (src : Option (SchemaSource ν))
    (value : Option γ) : Prop :=
  match src with
  | none => value = none
  | some src => ∃ v, value = some v ∧ P src v

variable {lib S env leaf req}

theorem Filled.imp {γ : Type} {P Q : SchemaSource ν → γ → Prop} {src : Option (SchemaSource ν)}
    {value : Option γ} (h : Filled P src value) (himp : ∀ src v, P src v → Q src v) :
    Filled Q src value := by
  cases src with
  | none => exact h
  | some src =>
      obtain ⟨v, hv, hP⟩ := h
      exact ⟨v, hv, himp src v hP⟩

theorem validatePairs_spec {serde : Serde} {src : Option (SchemaSource ν)} {pairs : List KvPair}
    {location : String} {text : Option String}
    (h : validatePairs serde (src.map lib.compile) pairs location = (text, [])) :
    Filled (fun src text => ∃ v, ((lib.compile src).validator v = [] ∧
      v = coercePairs serde pairs (lib.compile src).schema) ∧ text = serde.render v) src text := by
  obtain ⟨htext, hissues⟩ := Prod.mk.inj h
  cases src with
  | none => exact htext.symm
  | some src => exact ⟨_, htext.symm, _, ⟨List.map_eq_nil_iff.1 hissues, rfl⟩, rfl⟩

theorem validateBody_spec {serde : Serde} {src : Option (SchemaSource ν)} {decoded : Option Bytes}
    {text : Option String}
    (h : validateBody serde (src.map fun src => (lib.compile src).validator) decoded =
      (text, [])) :
    Filled (fun src text => ∃ v, ((lib.compile src).validator v = [] ∧
      ∃ plain, decoded = some plain ∧ serde.fromSlice plain = .ok v) ∧
        text = serde.render v) src text := by
  cases src with
  | none => exact (Prod.mk.inj h).1.symm
  | some src =>
      cases decoded with
      | none => cases (Prod.mk.inj h).2
      | some plain =>
          simp only [Option.map_some, validateBody] at h
          split at h
          case h_1 v hv =>
            obtain ⟨htext, hissues⟩ := Prod.mk.inj h
            exact ⟨_, htext.symm, v, ⟨List.map_eq_nil_iff.1 hissues, plain, rfl, hv⟩, rfl⟩
          case h_2 => cases (Prod.mk.inj h).2

/-- Every part of a validation that passes has found no issue. -/
theorem leafSchema_validate {serde : Serde} {query params : List KvPair} {decoded : Option Bytes}
    {validated : Validated}
    (h : (lib.leafSchema S).validate serde query params decoded = .ok validated) :
    validatePairs serde (S.query.map lib.compile) query "query" = (validated.query, []) ∧
      validatePairs serde (S.params.map lib.compile) params "params" = (validated.params, []) ∧
      validateBody serde (S.body.map fun src => (lib.compile src).validator) decoded =
        (validated.body, []) := by
  rw [LeafSchema.validate] at h
  simp only [Lib.leafSchema] at h
  obtain ⟨hempty, h⟩ | ⟨_, h⟩ := ite_eq_iff.1 h
  · rw [List.isEmpty_iff, List.append_eq_nil_iff, List.append_eq_nil_iff] at hempty
    obtain ⟨⟨hquery, hparams⟩, hbody⟩ := hempty
    rw [← Except.ok.inj h]
    exact ⟨Prod.ext rfl hquery, Prod.ext rfl hparams, Prod.ext rfl hbody⟩
  · cases h

/-- Of a location with a schema JS is given what Rust has accepted, and of another nothing. -/
theorem validated_spec (hleaf : leaf.schema = some (lib.leafSchema S))
    {lookup : String → Option Cache.Hit} {handoff : Handoff}
    (h : Dispatch.dispatch env leaf req lookup = .toJs handoff) (loc : Location) :
    Filled (fun src text => ∃ v, Accepted lib env leaf req loc src v ∧
      text = env.serde.render v) (source S loc) (textAt handoff.validated loc) := by
  obtain ⟨_, form, ⟨buffered, decoded⟩, validated, _, hbodies, _, hvalid, rfl⟩ :=
    Dispatch.dispatch_toJs h
  rw [Dispatch.validate, Leaf.activeSchema, hleaf] at hvalid
  cases hempty : (lib.leafSchema S).isEmpty with
  | true =>
      simp only [Option.filter_some, hempty] at hvalid
      obtain rfl := Except.ok.inj hvalid
      simp only [LeafSchema.isEmpty, Lib.leafSchema, Option.isNone_map, Bool.and_eq_true,
        Option.isNone_iff_eq_none] at hempty
      obtain ⟨⟨hbody, hquery⟩, hparams⟩ := hempty
      cases loc with
      | body => rw [source, hbody]; rfl
      | query => rw [source, hquery]; rfl
      | params => rw [source, hparams]; rfl
  | false =>
      simp only [Option.filter_some, hempty] at hvalid
      obtain ⟨hquery, hparams, hbody⟩ := leafSchema_validate hvalid
      cases loc with
      | body =>
          refine (validateBody_spec hbody).imp ?_
          rintro src text ⟨v, ⟨hok, plain, rfl, hv⟩, htext⟩
          exact ⟨v, ⟨hok, buffered, plain, hbodies, hv⟩, htext⟩
      | query => exact validatePairs_spec hquery
      | params => exact validatePairs_spec hparams

/-- What `_rustValid` holds. -/
theorem rustValid_spec (hleaf : leaf.schema = some (lib.leafSchema S))
    (hprint : ∀ v, lib.parse (env.serde.render v) = some (lib.ofValue v))
    {lookup : String → Option Cache.Hit} {handoff : Handoff}
    (h : Dispatch.dispatch env leaf req lookup = .toJs handoff) :
    ∃ rust, lib.rustValid handoff.validated = some rust ∧ ∀ loc,
      Filled (fun src j => ∃ v, Accepted lib env leaf req loc src v ∧ j = lib.ofValue v)
        (source S loc) (rust loc) := by
  have hat (loc : Location) : ∃ value, lib.parsed (textAt handoff.validated loc) = some value ∧
      Filled (fun src j => ∃ v, Accepted lib env leaf req loc src v ∧ j = lib.ofValue v)
        (source S loc) value := by
    have hspec := validated_spec hleaf h loc
    cases hsrc : source S loc with
    | none =>
        rw [hsrc] at hspec
        exact ⟨none, congrArg lib.parsed hspec, rfl⟩
    | some src =>
        rw [hsrc] at hspec
        obtain ⟨text, htext, v, hv, rfl⟩ := hspec
        refine ⟨some (lib.ofValue v), ?_, _, rfl, v, hv, rfl⟩
        rw [htext, Lib.parsed, hprint, Option.map_some]
  obtain ⟨body, hbody, hbody'⟩ := hat .body
  obtain ⟨query, hquery, hquery'⟩ := hat .query
  obtain ⟨params, hparams, hparams'⟩ := hat .params
  simp only [textAt] at hbody hquery hparams
  refine ⟨_, by rw [Lib.rustValid, hbody, hquery, hparams], fun loc => ?_⟩
  cases loc with
  | body => exact hbody'
  | query => exact hquery'
  | params => exact hparams'

end Accepted

/-! ## What the hook keeps -/

section Kept

variable {ν J : Type} {lib : Lib ν J} {S : RouteSchema ν}

/-- Where the hook passes, it keeps what every schema has made of its value. -/
theorem runHook_passed {rust : Values J} {json : Except Thrown J} {locs : List Location}
    (hnodup : locs.Nodup) {kept kept' : Values J}
    (h : lib.runHook S (some rust) json locs kept = (kept', .passed)) (loc : Location) :
    (∀ vs, loc ∈ locs → valibotSchemas S loc = some vs →
      ∃ data output, raw rust json loc = .ok data ∧
        lib.safeParse vs data = .ok (.success output) ∧ kept' loc = output) ∧
    (loc ∉ locs ∨ valibotSchemas S loc = none → kept' loc = kept loc) := by
  induction locs generalizing kept with
  | nil =>
      obtain rfl := (Prod.mk.inj h).1
      exact ⟨fun _ hmem => absurd hmem List.not_mem_nil, fun _ => rfl⟩
  | cons first locs ih =>
      obtain ⟨hfirst, hrest⟩ := List.nodup_cons.1 hnodup
      rw [Lib.runHook] at h
      split at h
      case h_1 hnone =>
        obtain ⟨hin, hout⟩ := ih hrest h
        refine ⟨fun vs hmem hvs => ?_, fun hor => hout ?_⟩
        · rcases List.mem_cons.1 hmem with rfl | hmem
          · rw [hnone] at hvs
            cases hvs
          · exact hin vs hmem hvs
        · exact hor.imp_left fun hnot hmem => hnot (List.mem_cons_of_mem _ hmem)
      case h_2 vs hsome =>
        rw [Option.elim_some] at h
        split at h
        case h_1 => cases (Prod.mk.inj h).2
        case h_2 data hdata =>
          split at h
          case h_1 => cases (Prod.mk.inj h).2
          case h_2 => cases (Prod.mk.inj h).2
          case h_3 output houtput =>
            obtain ⟨hin, hout⟩ := ih hrest h
            refine ⟨fun vs' hmem hvs => ?_, fun hor => ?_⟩
            · rcases List.mem_cons.1 hmem with rfl | hmem
              · obtain rfl := Option.some.inj (hsome.symm.trans hvs)
                refine ⟨data, output, hdata, houtput, ?_⟩
                rw [hout (Or.inl hfirst), Function.update_self]
              · exact hin vs' hmem hvs
            · have hne : loc ≠ first := by
                rintro rfl
                rcases hor with hnot | hnone
                · exact hnot (List.mem_cons_self ..)
                · rw [hsome] at hnone
                  cases hnone
              rw [hout (hor.imp_left fun hnot hmem => hnot (List.mem_cons_of_mem _ hmem)),
                Function.update_of_ne hne]

/-- Without a schema of valibot there is nothing to run. -/
theorem hook_of_no_valibot (hnone : S.hasValibot = false) (rust : Option (Values J))
    (json : Except Thrown J) : lib.hook S rust json = (fun _ => none, .passed) := by
  have hschemas (loc : Location) : valibotSchemas S loc = none := by
    simp only [RouteSchema.hasValibot, Bool.or_eq_false_iff] at hnone
    obtain ⟨⟨hbody, hquery⟩, hparams⟩ := hnone
    have hsource (src : Option (SchemaSource ν)) (h : src.any SchemaSource.isValibot = false)
        (hsrc : source S loc = src) : valibotSchemas S loc = none := by
      rw [valibotSchemas, hsrc]
      rcases src with _ | vs | text
      · rfl
      · cases h
      · rfl
    cases loc with
    | body => exact hsource _ hbody rfl
    | query => exact hsource _ hquery rfl
    | params => exact hsource _ hparams rfl
  simp [Lib.hook, VALIDATION_ORDER, Lib.runHook, hschemas]

/-- Where Rust has a value of the body, `c.req.json()` is not called. -/
theorem raw_of_some {rust : Values J} {json : Except Thrown J} {loc : Location} {v : J}
    (h : rust loc = some v) : raw rust json loc = .ok (some v) := by
  rw [raw, if_neg, h]
  rintro ⟨rfl, hnone⟩
  rw [hnone] at h
  cases h

theorem valid_of_kept {rust : Option (Values J)} {kept : Values J} {loc : Location} {v : J}
    (h : kept loc = some v) : valid rust kept loc = some (some v) := by
  rw [valid, h]

theorem valid_of_not_kept {rust kept : Values J} {loc : Location} (h : kept loc = none) :
    valid (some rust) kept loc = some (rust loc) := by
  rw [valid, h, Option.map_some]

/-! ## The hook in the pipeline -/

/-- Hook `k` of `preValidation` is the one of `injectValidation`, which ends so. -/
def Injected (lib : Lib ν J) (cfg : Config) (k : Nat) (ending : HookEnd) (ls : List Label) :
    Prop :=
  k < cfg.chain.before .preValidation ∧
    ∀ ms out, ms ++ [.settle .core out] <+: ls → RunningAt cfg .preValidation k ms →
      match ending with
      | .passed => out = .returned .nothing
      | .refused issues =>
          out = .returned .nothing ∧
            ∃ ns, ns ++ [.op (.before .preValidation k)
                (.json (.ok (some (lib.errorText issues))) (some 400))] <+: ms ∧
              RunningAt cfg .preValidation k ns
      | .threw e => out = .threw e

theorem passed_of_entered {cfg : Config} {k : Nat} {ending : HookEnd} {ls : List Label}
    {s : Pipeline.State} (hinjected : Injected lib cfg k ending ls)
    (hrun : run (Pipeline.step cfg) (Pipeline.State.init cfg) ls = some s)
    (hentered : s.Entered) : ending = .passed := by
  obtain ⟨hk, hends⟩ := hinjected
  cases ending with
  | passed => rfl
  | refused issues =>
      refine absurd hentered (Pipeline.not_entered_of_refuses hk hrun fun ms out hms hat => ?_)
      obtain ⟨_, ns, hns, hat'⟩ := hends ms out hms hat
      refine Or.inr ⟨ns, _, hns, hat', fun c hc => ?_⟩
      simp [Op.apply, Ctx.json, Ctx.mutate, hc]
  | threw e =>
      refine absurd hentered (Pipeline.not_entered_of_refuses hk hrun fun ms out hms hat => ?_)
      exact Or.inl ⟨e, hends ms out hms hat⟩

end Kept

/-! ### A route whose body has a schema of valibot -/

/-- valibot adds a default to an empty object; the values of the engine are told by their
texts. -/
def sampleLib : Lib Unit String where
  compile := fun _ => { validator := fun _ => [], schema := .object [] }
  safeParse := fun _ data =>
    .ok (if data = some "{}" then .success (some "\x7b\"page\":1\x7d") else .failure none)
  parse := some
  ofValue := Dispatch.sampleEnv.serde.render
  errorText := fun _ => "\x7b\"error\":\"validation\",\"issues\":[]\x7d"

def sampleSchema : RouteSchema Unit := { body := some (.valibot ()), query := none, params := none }

def sampleLeaf : Leaf :=
  { schema := some (sampleLib.leafSchema sampleSchema), multipart := none, cache := none
    params := fun _ => [] }

def validatedChain : Pipeline.Chain :=
  { Pipeline.bareChain with
    before := fun stage => match stage with
      | .preValidation => 1
      | _ => 0 }

/-- The hook passes, and the handler is called. -/
def validatedRun : List Label :=
  [.start, .resume .core, .resume .core, .settle .core (.returned .nothing), .resume .core,
    .resume .core, .resume .core]

end Validation
end OxideHttp
