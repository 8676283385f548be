import OxideHttp.Pipeline.Errors
import OxideHttp.Pipeline.TraceRun

/-!
# Hooks that only observe an error (`handleError`)

A run with `onError` hooks that access nothing of the response is set beside the run of the
same chain without these hooks, in which everything else happens in the same order and the
exception is caught when the last hook has returned.

Results.
* `follows`: until the core ends, the other run is at the same state, or, while the hooks
  run, at its exception, with a context that is the same up to `content-type`.
* `error_default`: where no response is set when the last hook has returned, the response
  has the status of the exception, and it is that of the run without the hooks.
-/

namespace OxideHttp
namespace Pipeline

open Context Transition

/-! ## The chain without its hooks -/

def Core.isOnError : Core → Bool
  | .onError .. => true
  | _ => false

def Fn.isOnError : Fn → Bool
  | .onError _ => true
  | _ => false

/-- The `onError` hooks access nothing of the response. -/
def Watching (_ : State) : Label → Prop
  | .op f _ => f.isOnError = false
  | _ => True

/-- The chain without its `onError` hooks. -/
def Config.unhooked (cfg : Config) : Config :=
  { cfg with chain := { cfg.chain with onError := 0 } }

/-- What is left of a run without the steps of `handleError` up to its last hook. -/
def withoutHooks (cfg : Config) : State → List Label → List Label
  | _, [] => []
  | s, l :: ls =>
      match step cfg s l with
      | none => []
      | some t =>
          if l.isCore && t.core.isOnError then withoutHooks cfg t ls
          else l :: withoutHooks cfg t ls

/-- The same response, up to the order of headers of different names. -/
structure SameReply (cfg : Config) (s t : State) : Prop where
  status : (s.response cfg).status = (t.response cfg).status
  body : (s.response cfg).body = (t.response cfg).body
  streamed : (s.response cfg).streamed = (t.response cfg).streamed
  headers : ∀ key, s.ctx.headers.values key = t.ctx.headers.values key

/-- Whenever `runCore` ends in a run, and no hook threw, it ends with the same response
in the run without the hooks. -/
def Unchanged (cfg : Config) (ls : List Label) : Prop :=
  ∀ ms l s t ending, ms ++ [l] <+: ls → run (step cfg) (State.init cfg) ms = some s →
    step cfg s l = some t → s.core.isDone = false → t.core = .done ending →
      (∀ e, ending ≠ .rethrown e) →
        ∃ u, run (step cfg.unhooked) (State.init cfg.unhooked)
            (withoutHooks cfg (State.init cfg) (ms ++ [l])) = some u ∧
          u.core = .done ending ∧ SameReply cfg t u

theorem withoutHooks_concat {cfg : Config} {s t u : State} {ls : List Label} {l : Label}
    (hrun : run (step cfg) s ls = some t) (hstep : step cfg t l = some u) :
    withoutHooks cfg s (ls ++ [l]) =
      withoutHooks cfg s ls ++ if l.isCore && u.core.isOnError then [] else [l] := by
  induction ls generalizing s with
  | nil =>
      obtain rfl := Option.some.inj hrun
      simp only [List.nil_append, withoutHooks, hstep]
  | cons a ls ih =>
      obtain ⟨v, hv, hvt⟩ := run_cons_some.1 hrun
      rw [List.cons_append, withoutHooks, withoutHooks, hv]
      dsimp only
      split
      · exact ih hvt
      · rw [ih hvt, List.cons_append]

/-! ## Contexts up to `content-type` -/

/-- The same but for the values of `content-type`, and for what no response tells of. -/
structure SameButType (c d : Ctx) : Prop where
  status : c.status = d.status
  body : c.body = d.body
  stream : c.stream = d.stream
  finalized : c.finalized = d.finalized
  settled : c.settled = d.settled
  headers : ∀ key, key ≠ contentType → c.headers.values key = d.headers.values key

section Contexts

variable {c d c' d' : Ctx}

theorem SameButType.refl (c : Ctx) : SameButType c c :=
  ⟨rfl, rfl, rfl, rfl, rfl, fun _ _ => rfl⟩

theorem SameButType.symm (h : SameButType c d) : SameButType d c :=
  ⟨h.status.symm, h.body.symm, h.stream.symm, h.finalized.symm, h.settled.symm,
    fun key hkey => (h.headers key hkey).symm⟩

theorem SameButType.trans {b : Ctx} (h : SameButType b c) (h' : SameButType c d) :
    SameButType b d where
  status := h.status.trans h'.status
  body := h.body.trans h'.body
  stream := h.stream.trans h'.stream
  finalized := h.finalized.trans h'.finalized
  settled := h.settled.trans h'.settled
  headers key hkey := (h.headers key hkey).trans (h'.headers key hkey)

theorem SameButType.mutate (h : SameButType c d) (h' : SameButType c' d') :
    SameButType (c.mutate c') (d.mutate d') := by
  unfold Ctx.mutate
  rw [h.settled]
  split
  case isTrue => exact h
  case isFalse => exact h'

/-- A method of `c.res.headers` treats each name for itself. -/
theorem SameButType.headerOp (h : SameButType c d) (o : HeaderOp) :
    SameButType { c with headers := o.apply c.headers }
      { d with headers := o.apply d.headers } := by
  refine ⟨h.status, h.body, h.stream, h.finalized, h.settled, fun key hkey => ?_⟩
  by_cases hname : lowerName o.name = key
  · subst hname
    exact o.values_apply_self c.headers d.headers (h.headers _ hkey)
  · exact (o.values_apply c.headers hname).trans
      ((h.headers key hkey).trans (o.values_apply d.headers hname).symm)

theorem SameButType.finalize (h : SameButType c d) (status : Option Int)
    (body : Option String) (stream : Option Nat) :
    SameButType
      { c.setStatus status with body := body, stream := stream, finalized := true }
      { d.setStatus status with body := body, stream := stream, finalized := true } :=
  ⟨congrArg status.or h.status, rfl, rfl, rfl, h.settled, h.headers⟩

/-- Setting `content-type` makes no difference. -/
theorem sameButType_setType (c : Ctx) (value : String) :
    SameButType (c.setHeader contentType value) c := by
  refine ⟨rfl, rfl, rfl, rfl, rfl, fun key hkey => ?_⟩
  have hname : lowerName (HeaderOp.set contentType value).name ≠ key := by
    rw [HeaderOp.name, show lowerName contentType = contentType by decide]
    exact hkey.symm
  exact HeaderOp.values_apply (.set contentType value) c.headers hname

theorem SameButType.apply (h : SameButType c d) (o : Op) :
    SameButType (o.apply c) (o.apply d) := by
  cases o with
  | status code =>
      exact h.mutate ⟨rfl, h.body, h.stream, h.finalized, h.settled, h.headers⟩
  | header name value => exact h.mutate (h.headerOp (.set name value))
  | cookie line => exact h.mutate (h.headerOp (.append "set-cookie" line))
  | json value status =>
      have hheader := h.headerOp (.set contentType ctJson)
      cases value with
      | error e => exact h.mutate hheader
      | ok body => exact h.mutate (hheader.finalize status body none)
  | text value status =>
      exact h.mutate ((h.headerOp (.set contentType ctText)).finalize status _ _)
  | bodyStream source status => exact h.mutate (h.finalize status _ _)
  | bodyString data status => exact h.mutate (h.finalize status _ _)
  | resStatus status => exact ⟨rfl, h.body, h.stream, h.finalized, h.settled, h.headers⟩
  | resHeaders o => exact h.headerOp o

theorem SameButType.applyReturnValue (h : SameButType c d) (v : Value) :
    SameButType (applyReturnValue c v).1 (applyReturnValue d v).1 ∧
      (Context.applyReturnValue c v).2 = (Context.applyReturnValue d v).2 := by
  unfold Context.applyReturnValue
  rw [h.finalized]
  split
  case isTrue => exact ⟨h, rfl⟩
  case isFalse =>
    cases v with
    | nothing | context => exact ⟨h, rfl⟩
    | string s => exact ⟨h.apply (.text s none), rfl⟩
    | stream source => exact ⟨h.apply (.bodyStream source none), rfl⟩
    | json value =>
        refine ⟨h.apply (.json value none), ?_⟩
        rw [h.settled]

/-- The default response hides the difference. -/
theorem SameButType.defaultError (h : SameButType c d) (hsettled : d.settled = false)
    (err : Thrown) :
    (defaultError c err).view = (defaultError d err).view ∧
      ∀ key, (Context.defaultError c err).headers.values key =
        (Context.defaultError d err).headers.values key := by
  have hsettled' : c.settled = false := h.settled.trans hsettled
  have hvalues (key : String) : (c.headers.set contentType ctText).values key =
      (d.headers.set contentType ctText).values key := by
    simp only [ResHeaders.set, ResHeaders.values_put]
    split
    case isTrue => rfl
    case isFalse hkey =>
      refine h.headers key fun hsame => hkey ?_
      rw [hsame]
      decide
  have htext (b : Ctx) (hb : b.settled = false) : Context.defaultError b err =
      { b with
        status := some err.status, headers := b.headers.set contentType ctText,
        body := some err.text, stream := none, finalized := true } := by
    simp [Context.defaultError, Ctx.text, Ctx.mutate, hb, Ctx.setHeader, Ctx.setStatus]
  rw [htext c hsettled', htext d hsettled]
  exact ⟨view_eq_iff.2 ⟨rfl, hvalues contentType, rfl, rfl, rfl, h.settled⟩, hvalues⟩

end Contexts

/-! ## The two runs -/

section Runs

variable {cfg : Config} {s t u : State}

theorem unhooked_eq (h : cfg.chain.onError = 0) : cfg.unhooked = cfg := by
  obtain ⟨chain, _⟩ := cfg
  obtain ⟨_⟩ := chain
  cases h
  rfl

theorem handleError_isOnError {err : Thrown} :
    (s.handleError cfg err).core.isOnError = true ↔ cfg.chain.onError ≠ 0 := by
  unfold State.handleError
  split
  case isTrue hnone => exact iff_of_false Bool.false_ne_true (not_not_intro hnone)
  case isFalse hsome => exact iff_of_true rfl hsome

theorem enterHandler_isOnError : (s.enterHandler cfg).core.isOnError = false := by
  unfold State.enterHandler
  split
  case isTrue => rfl
  case isFalse => split <;> rfl

theorem enterStage_isOnError {stage : BeforeStage} :
    (s.enterStage cfg stage).core.isOnError = false := by
  unfold State.enterStage
  split
  case isTrue => exact enterHandler_isOnError
  case isFalse => rfl

/-- Away from its hooks `handleError` is called by neither of the two, or by both. -/
theorem resumeCore_unhooked (h : s.resumeCore cfg = some t)
    (hs : s.core.isOnError = false) (ht : t.core.isOnError = false) :
    s.resumeCore cfg.unhooked = some t := by
  by_cases hhooks : cfg.chain.onError = 0
  · rw [unhooked_eq hhooks]
    exact h
  · cases State.resumeCore_resumed h with
    | before hcore hnext =>
        have hnext' := hnext
        simp only [State.resumeCore, hcore]
        exact Option.map_eq_some_iff.2 ⟨_, hnext', rfl⟩
    | stage hcore hnext hlater =>
        simp only [State.resumeCore, hcore]
        refine Option.map_eq_some_iff.2 ⟨_, hnext, ?_⟩
        simp only [hlater]
        rfl
    | handler hcore hnext hlast =>
        simp only [State.resumeCore, hcore]
        refine Option.map_eq_some_iff.2 ⟨_, hnext, ?_⟩
        simp only [hlast]
        rfl
    | beforeThrew => rw [handleError_isOnError.2 hhooks] at ht; cases ht
    | @bare out hcore =>
        simp only [State.resumeCore, hcore, Option.map_some]
        cases hout : s.applied out with
        | mk b failure =>
            rw [hout] at ht
            cases failure with
            | none => rfl
            | some e => rw [State.tried, handleError_isOnError.2 hhooks] at ht; cases ht
    | @onion failure hcore hroot =>
        simp only [State.resumeCore, hcore, hroot]
        cases failure with
        | none => rfl
        | some e => rw [State.tried, handleError_isOnError.2 hhooks] at ht; cases ht
    | onError hcore | handled hcore => rw [hcore] at hs; cases hs

theorem step_unhooked {l : Label} (h : step cfg s l = some t)
    (hs : s.core.isOnError = false) (ht : t.core.isOnError = false) :
    step cfg.unhooked s l = some t := by
  cases l with
  | resume strand =>
      cases strand with
      | core => exact resumeCore_unhooked h hs ht
      | task | timer | watcher | main => exact h
  | start | op | next | settle | fire | waitAbort => exact h

/-- The core is at the exception `err`, which it has yet to catch. -/
def Pending (u : State) (err : Thrown) : Prop :=
  (∃ stage, u.core = .before stage (.ended (some err))) ∨
    u.core = .bare (some (.threw err)) ∨
    u.core = .bare (some (.returned (.json (.error err)))) ∨
    u.core = .onion ∧ u.onion.head? = some (.ended (some err))

/-- What the run without the hooks has of the other, while the hooks run. -/
structure Mirrors (s u : State) : Prop where
  onion : u.onion = s.onion
  timer : u.timer = s.timer
  watcher : u.watcher = s.watcher
  main : u.main = s.main
  started : s.main ≠ .idle
  log : ∀ f ∈ s.log, f.isOnError = false → f ∈ u.log
  pending : ∀ err loop, s.core = .onError err loop → Pending u err
  ctx : SameButType s.ctx u.ctx

/-- Where the handler's value makes an exception, it has touched `content-type`. -/
theorem applied_threw {out : Outcome} {b : State} {e : Thrown}
    (h : s.applied out = (b, some e)) :
    (out = .threw e ∨ out = .returned (.json (.error e))) ∧
      ∃ c, b = { s with ctx := c } ∧ SameButType c s.ctx := by
  cases out with
  | threw e' =>
      obtain ⟨rfl, he⟩ := Prod.mk.inj h
      obtain rfl := Option.some.inj he
      exact ⟨Or.inl rfl, s.ctx, rfl, SameButType.refl _⟩
  | returned v =>
      obtain ⟨rfl, he⟩ := Prod.mk.inj h
      unfold Context.applyReturnValue at he
      split at he
      case isTrue => cases he
      case isFalse hopen =>
        cases v with
        | nothing | context | string | stream => cases he
        | json value =>
            cases value with
            | ok body => cases he
            | error e' =>
                cases hsettled : s.ctx.settled with
                | true => simp [hsettled] at he
                | false =>
                    simp only [hsettled] at he
                    obtain rfl := Option.some.inj he
                    refine ⟨Or.inr rfl, _, rfl, ?_⟩
                    rw [Context.applyReturnValue, if_neg hopen]
                    simp only [Ctx.json, Ctx.mutate, hsettled, Bool.false_eq_true, if_false]
                    exact sameButType_setType s.ctx ctJson

theorem mirrors_handleError {err : Thrown} {b : State} {c : Ctx}
    (hb : b = { s with ctx := c }) (hctx : SameButType c s.ctx) (hmain : s.main ≠ .idle)
    (ht : (b.handleError cfg err).core.isOnError = true) (hpending : Pending s err) :
    Mirrors (b.handleError cfg err) s := by
  have hhooks := handleError_isOnError.1 ht
  subst hb
  unfold State.handleError
  rw [if_neg hhooks]
  refine ⟨rfl, rfl, rfl, rfl, hmain, fun f hf hother => ?_, fun err' loop hcore => ?_, ?_⟩
  · rcases List.mem_append.1 hf with hold | hcalled
    · exact hold
    · obtain ⟨k, rfl⟩ := Loop.mem_called hcalled
      cases hother
  · obtain ⟨rfl, -⟩ := Core.onError.inj hcore
    exact hpending
  · exact ⟨hctx.status, hctx.body, hctx.stream, hctx.finalized, hctx.settled, hctx.headers⟩

/-- The exception is caught, and there are hooks. -/
theorem mirrors_caught (h : s.resumeCore cfg = some t) (hmain : s.main = .idle → s.core = .idle)
    (hs : s.core.isOnError = false) (ht : t.core.isOnError = true) : Mirrors t s := by
  have hstarted (hcore : s.core ≠ .idle) : s.main ≠ .idle := fun hidle =>
    hcore (hmain hidle)
  cases State.resumeCore_resumed h with
  | before => cases ht
  | stage => rw [enterStage_isOnError] at ht; cases ht
  | handler => rw [enterHandler_isOnError] at ht; cases ht
  | @beforeThrew stage loop e hcore hnext =>
      refine mirrors_handleError (c := s.ctx) rfl (SameButType.refl _)
        (hstarted (by simp [hcore])) ht (Or.inl ⟨stage, ?_⟩)
      rw [hcore, Loop.resume_inr hnext]
  | @bare out hcore =>
      cases hout : s.applied out with
      | mk b failure =>
          rw [hout] at ht
          cases failure with
          | none => cases ht
          | some e =>
              obtain ⟨hcause, c, hb, hctx⟩ := applied_threw hout
              refine mirrors_handleError hb hctx (hstarted (by simp [hcore])) ht ?_
              rcases hcause with rfl | rfl
              · exact Or.inr (Or.inl hcore)
              · exact Or.inr (Or.inr (Or.inl hcore))
  | @onion failure hcore hroot =>
      cases failure with
      | none => cases ht
      | some e =>
          exact mirrors_handleError (c := s.ctx) rfl (SameButType.refl _)
            (hstarted (by simp [hcore])) ht (Or.inr (Or.inr (Or.inr ⟨hcore, hroot⟩)))
  | onError hcore | handled hcore => rw [hcore] at hs; cases hs

/-- At the exception the run without the hooks stops, and it mirrors the other. -/
theorem mirrors_catch {l : Label} (h : step cfg s l = some t)
    (hmain : s.main = .idle → s.core = .idle) (hs : s.core.isOnError = false)
    (ht : t.core.isOnError = true) : l.isCore = true ∧ Mirrors t s := by
  rcases core_step h with ⟨-, -, rfl⟩ | hl | hsame
  · unfold State.runCore at ht
    split at ht
    case isTrue => rw [enterStage_isOnError] at ht; cases ht
    case isFalse => rw [enterHandler_isOnError] at ht; cases ht
  · refine ⟨hl, ?_⟩
    rcases isCore_cases hl with ⟨out, rfl⟩ | rfl
    · have hsettle : s.settle out .core = some t := h
      cases State.settle_settled hsettle with
      | before | bare => cases ht
      | onError hcore => rw [hcore] at hs; cases hs
    · exact mirrors_caught h hmain hs ht
  · rw [hsame, hs] at ht
    cases ht

/-- The exception stays where it is when calls are added to the onion. -/
theorem Pending.congr {v : State} {err : Thrown} (h : Pending u err) (hcore : v.core = u.core)
    (honion : u.onion.head? = some (.ended (some err)) →
      v.onion.head? = some (.ended (some err))) : Pending v err := by
  rcases h with ⟨stage, h⟩ | h | h | ⟨h, hroot⟩
  · exact Or.inl ⟨stage, hcore.trans h⟩
  · exact Or.inr (Or.inl (hcore.trans h))
  · exact Or.inr (Or.inr (Or.inl (hcore.trans h)))
  · exact Or.inr (Or.inr (Or.inr ⟨hcore.trans h, honion hroot⟩))

/-- An ended root is not the call that changes. -/
theorem head?_set {onion : List Task} {i : Nat} {failure : Option Thrown} {call : Awaited}
    (hi : onion[i]? = some (.running call)) (hroot : onion.head? = some (.ended failure))
    (task : Task) : (onion.set i task).head? = some (.ended failure) := by
  cases onion with
  | nil => cases hroot
  | cons a onion =>
      cases i with
      | zero =>
          obtain rfl := Option.some.inj hi
          cases hroot
      | succ i => exact hroot

/-- A core step of the hooks is one of the one run alone. -/
theorem Mirrors.coreStep (h : Mirrors s u) {l : Label} (hl : l.isCore = true)
    (hs : s.core.isOnError = true) (hstep : step cfg s l = some t)
    (ht : t.core.isOnError = true) : Mirrors t u := by
  rcases isCore_cases hl with ⟨out, rfl⟩ | rfl
  · have hsettle : s.settle out .core = some t := hstep
    cases State.settle_settled hsettle with
    | before hcore | bare hcore => rw [hcore] at hs; cases hs
    | onError hcore =>
        refine ⟨h.onion, h.timer, h.watcher, h.main, h.started, h.log,
          fun err loop hnext => ?_, h.ctx⟩
        obtain ⟨rfl, -⟩ := Core.onError.inj hnext
        exact h.pending _ _ hcore
  · cases State.resumeCore_resumed hstep with
    | before hcore | stage hcore | handler hcore | beforeThrew hcore | bare hcore
    | onion hcore => rw [hcore] at hs; cases hs
    | @handled _ _ failure => cases failure <;> cases ht
    | onError hcore =>
        refine ⟨h.onion, h.timer, h.watcher, h.main, h.started, fun f hf hother => ?_,
          fun err loop hnext => ?_, h.ctx⟩
        · rcases List.mem_append.1 hf with hold | hcalled
          · exact h.log f hold hother
          · obtain ⟨k, rfl⟩ := Loop.mem_called hcalled
            cases hother
        · obtain ⟨rfl, -⟩ := Core.onError.inj hnext
          exact h.pending _ _ hcore

/-- Calls that both runs add to their logs. -/
theorem Mirrors.append (h : Mirrors s u) (fns : List Fn) :
    ∀ f ∈ s.log ++ fns, f.isOnError = false → f ∈ u.log ++ fns := by
  intro f hf hother
  rcases List.mem_append.1 hf with hold | hnew
  · exact List.mem_append_left _ (h.log f hold hother)
  · exact List.mem_append_right _ hnew

theorem Mirrors.next (h : Mirrors s u) {i : Nat} (hnext : s.next cfg i = some t) :
    ∃ v, u.next cfg.unhooked i = some v ∧ Mirrors t v := by
  unfold State.next at hnext ⊢
  rw [h.onion]
  split at hnext
  case isFalse => cases hnext
  case isTrue hi =>
    rw [if_pos (show i < s.onion.length ∧ i < cfg.unhooked.chain.middleware from hi)]
    split at hnext
    case isTrue hlate =>
      obtain rfl := Option.some.inj hnext
      exact ⟨u, if_pos hlate, h⟩
    case isFalse hnew =>
      obtain rfl := Option.some.inj hnext
      refine ⟨_, if_neg hnew, rfl, h.timer, h.watcher, h.main, h.started, h.append _,
        fun err loop hcore => (h.pending err loop hcore).congr rfl fun hroot => ?_, h.ctx⟩
      rw [h.onion] at hroot
      rw [List.head?_append, hroot]
      rfl

theorem Mirrors.settle (h : Mirrors s u) (hracing : s.main = .racing) (htimer : s.timer = .off)
    {strand : Strand} {out : Outcome} (hl : (Label.settle strand out).isCore = false)
    (hsettle : s.settle out strand = some t) :
    ∃ v, u.settle out strand = some v ∧ Mirrors t v := by
  cases State.settle_settled hsettle with
  | before | bare | onError => cases hl
  | @task i htask =>
      have htask' : u.onion[i]? = some (.running none) := by rw [h.onion]; exact htask
      refine ⟨{ u with onion := u.onion.set i (.running (some out)) }, ?_, ?_⟩
      · simp only [State.settle, htask']
      · refine ⟨congrArg (List.set · i (.running (some out))) h.onion, h.timer, h.watcher,
          h.main, h.started, h.log, fun err loop hcore => ?_, h.ctx⟩
        exact (h.pending err loop hcore).congr rfl fun hroot => head?_set htask' hroot _
  | onTimeout hrunning =>
      rw [htimer] at hrunning
      cases hrunning
  | @onAbort k hwatcher =>
      refine ⟨{ u with watcher := .onAbort (.hook k (some out)) }, ?_, ?_⟩
      · simp only [State.settle, h.watcher, hwatcher, Loop.settle, Option.map_some]
      · exact ⟨h.onion, h.timer, rfl, h.main, h.started, h.log, h.pending, h.ctx⟩
  | preSerialization hmain | onSend hmain | onResponse hmain =>
      rw [hracing] at hmain
      cases hmain

theorem Mirrors.resumeTask (h : Mirrors s u) {i : Nat} (hresume : s.resumeTask cfg i = some t) :
    ∃ v, u.resumeTask cfg.unhooked i = some v ∧ Mirrors t v := by
  unfold State.resumeTask at hresume ⊢
  rw [h.onion]
  split at hresume
  case h_2 => cases hresume
  case h_1 out htask =>
    have hpending (task : Task) : ∀ err loop, s.core = .onError err loop →
        Pending { u with onion := s.onion.set i task } err := fun err loop hcore =>
      (h.pending err loop hcore).congr rfl fun hroot => by
        rw [h.onion] at hroot
        exact head?_set htask hroot task
    split at hresume
    case isTrue hi =>
      obtain rfl := Option.some.inj hresume
      exact ⟨_, if_pos hi, rfl, h.timer, h.watcher, h.main, h.started, h.log, hpending _, h.ctx⟩
    case isFalse hi =>
      obtain rfl := Option.some.inj hresume
      refine ⟨_, if_neg hi, ?_⟩
      cases out with
      | threw e =>
          exact ⟨rfl, h.timer, h.watcher, h.main, h.started, h.log, hpending _, h.ctx⟩
      | returned v =>
          obtain ⟨hctx, hfailure⟩ := h.ctx.applyReturnValue v
          refine ⟨?_, h.timer, h.watcher, h.main, h.started, h.log,
            fun err loop hcore => ?_, hctx⟩
          · simp only [State.applied, hfailure]
          · exact (hpending (.ended (State.applied u (.returned v)).2) err loop
              hcore).congr rfl id

theorem Mirrors.resumeWatcher (h : Mirrors s u) (hresume : s.resumeWatcher cfg = some t) :
    ∃ v, u.resumeWatcher cfg.unhooked = some v ∧ Mirrors t v := by
  unfold State.resumeWatcher at hresume ⊢
  rw [h.watcher]
  split at hresume
  case h_2 => cases hresume
  case h_1 loop hwatcher =>
    obtain ⟨next, hnext, rfl⟩ := Option.map_eq_some_iff.1 hresume
    refine ⟨_, Option.map_eq_some_iff.2 ⟨next, hnext, rfl⟩, ?_⟩
    cases next with
    | inl loop =>
        exact ⟨h.onion, h.timer, rfl, h.main, h.started, h.append _, h.pending, h.ctx⟩
    | inr failure =>
        exact ⟨h.onion, h.timer, rfl, h.main, h.started, h.log, h.pending, h.ctx⟩

theorem Mirrors.waitAbort (h : Mirrors s u) {aborted : Bool}
    (hwait : s.waitAbort cfg aborted = some t) :
    ∃ v, u.waitAbort cfg.unhooked aborted = some v ∧ Mirrors t v := by
  have hsettled : u.ctx.settled = s.ctx.settled := h.ctx.settled.symm
  unfold State.waitAbort at hwait ⊢
  rw [h.watcher, hsettled]
  split at hwait
  case h_2 => cases hwait
  case h_1 hwatcher =>
    split at hwait
    case isTrue hnone =>
      obtain rfl := Option.some.inj hwait
      exact ⟨_, if_pos hnone, h.onion, h.timer, rfl, h.main, h.started, h.log, h.pending, h.ctx⟩
    case isFalse hsome =>
      obtain rfl := Option.some.inj hwait
      refine ⟨_, if_neg hsome, h.onion, h.timer, rfl, h.main, h.started, h.append _,
        h.pending, ?_⟩
      exact ⟨h.ctx.status, h.ctx.body, h.ctx.stream, h.ctx.finalized, h.ctx.settled,
        h.ctx.headers⟩

/-- Any other step is one of both. -/
theorem Mirrors.otherStep (h : Mirrors s u) (hun : Untimed s) (hs : s.core.isOnError = true)
    {l : Label} (hl : l.isCore = false) (hwatching : Watching s l)
    (hstep : step cfg s l = some t) :
    ∃ v, step cfg.unhooked u l = some v ∧ Mirrors t v := by
  have hundone : s.core.isDone = false := by
    cases hcore : s.core with
    | idle | before | bare | onion | done => rw [hcore] at hs; cases hs
    | onError => rfl
  have hracing : s.main = .racing := by
    have hafter := hun.racing hundone
    cases hmain : s.main with
    | idle => exact absurd hmain h.started
    | racing => rfl
    | preSerialization | onSend | onResponse | failed | settled | rejected =>
        rw [hmain] at hafter
        cases hafter
  cases l with
  | start =>
      have hidle := (start_eq hstep).1
      exact absurd hidle h.started
  | op f o =>
      obtain ⟨hf, rfl⟩ := op_eq hstep
      refine ⟨{ u with ctx := o.apply u.ctx }, if_pos (h.log f hf hwatching), ?_⟩
      exact ⟨h.onion, h.timer, h.watcher, h.main, h.started, h.log, h.pending, h.ctx.apply o⟩
  | next i => exact h.next hstep
  | settle strand out => exact h.settle hracing hun.timer hl hstep
  | resume strand =>
      cases strand with
      | core => cases hl
      | task i => exact h.resumeTask hstep
      | timer =>
          obtain ⟨_, htimer, _⟩ := State.resumeTimer_eq hstep
          rw [hun.timer] at htimer
          cases htimer
      | watcher => exact h.resumeWatcher hstep
      | main =>
          have hwon : s.raceWon = true := by
            have hresumed := State.resumeMain_won hstep
            rw [hracing] at hresumed
            exact hresumed.resolve_left Bool.false_ne_true
          rw [State.raceWon, hundone, hun.timer] at hwon
          cases hwon
  | fire =>
      have htimer := (State.fire_eq hstep).1
      rw [hun.timer] at htimer
      cases htimer
  | waitAbort aborted => exact h.waitAbort hstep

/-- The exception is caught at once where there are no hooks. -/
theorem Pending.resume {err : Thrown} (h : Pending u err) (cfg : Config)
    (hopen : u.ctx.finalized = false) (hsettled : u.ctx.settled = false) :
    ∃ c, SameButType c u.ctx ∧ u.resumeCore cfg.unhooked =
      some { u with ctx := defaultError c err, core := .done (.handled err) } := by
  have herror (c : Ctx) (hc : SameButType c u.ctx) :
      SameButType { c with error := some err } u.ctx :=
    ⟨hc.status, hc.body, hc.stream, hc.finalized, hc.settled, hc.headers⟩
  have hcaught (c : Ctx) : State.handleError cfg.unhooked { u with ctx := c } err =
      { u with
        ctx := defaultError { c with error := some err } err
        core := .done (.handled err) } := by
    unfold State.handleError
    exact if_pos rfl
  rcases h with ⟨stage, hcore⟩ | hcore | hcore | ⟨hcore, hroot⟩
  · refine ⟨_, herror u.ctx (SameButType.refl _), ?_⟩
    simp only [State.resumeCore, hcore, Loop.resume, Option.map_some]
    exact congrArg some (hcaught u.ctx)
  · refine ⟨_, herror u.ctx (SameButType.refl _), ?_⟩
    simp only [State.resumeCore, hcore, Option.map_some]
    exact congrArg some (hcaught u.ctx)
  · refine ⟨_, herror _ (sameButType_setType u.ctx ctJson), ?_⟩
    have hthrows : u.applied (.returned (.json (.error err))) =
        ({ u with ctx := u.ctx.setHeader contentType ctJson }, some err) := by
      simp [State.applied, Context.applyReturnValue, Ctx.json, Ctx.mutate, hopen, hsettled]
    simp only [State.resumeCore, hcore, Option.map_some, hthrows]
    exact congrArg some (hcaught _)
  · refine ⟨_, herror u.ctx (SameButType.refl _), ?_⟩
    simp only [State.resumeCore, hcore, hroot]
    exact congrArg some (hcaught u.ctx)

/-- After its last hook the core ends with the response of the run without them. -/
theorem Mirrors.sameReply (h : Mirrors s u) (hun : Untimed s) {err : Thrown}
    (hcore : s.core = .onError err (.ended none)) (hopen : s.ctx.finalized = false) :
    ∃ v, step cfg.unhooked u (.resume .core) = some v ∧ v.core = .done (.handled err) ∧
      SameReply cfg (s.afterOnError err none) v := by
  have hsettled : u.ctx.settled = false :=
    h.ctx.settled.symm.trans (hun.unsettled (by rw [hcore]; rfl))
  obtain ⟨c, hc, hresume⟩ := (h.pending err _ hcore).resume cfg
    (h.ctx.finalized.symm.trans hopen) hsettled
  refine ⟨_, hresume, rfl, ?_⟩
  obtain ⟨hview, hheaders⟩ :=
    (h.ctx.trans hc.symm).defaultError (hc.settled.trans hsettled) err
  obtain ⟨hstatus, hbody, hstreamed⟩ := buildNativeResponse_view cfg.json cfg.responseStrip hview
  have hended : s.afterOnError err none =
      { s with ctx := defaultError s.ctx err, core := .done (.handled err) } := by
    simp only [State.afterOnError, hopen, Bool.false_eq_true, if_false]
  rw [hended]
  exact ⟨hstatus, hbody, hstreamed, hheaders⟩

/-- Once called, the hooks run until the core is done. -/
theorem onError_step {l : Label} (hstep : step cfg s l = some t)
    (hmain : s.main = .idle → s.core = .idle) (hs : s.core.isOnError = true)
    (ht : t.core.isDone = false) : t.core.isOnError = true := by
  rcases core_step hstep with ⟨-, hidle, -⟩ | hl | hsame
  · rw [hmain hidle] at hs
    cases hs
  · rcases isCore_cases hl with ⟨out, rfl⟩ | rfl
    · have hsettle : s.settle out .core = some t := hstep
      cases State.settle_settled hsettle with
      | before hcore | bare hcore => rw [hcore] at hs; cases hs
      | onError => rfl
    · cases State.resumeCore_resumed hstep with
      | before hcore | stage hcore | handler hcore | beforeThrew hcore | bare hcore
      | onion hcore => rw [hcore] at hs; cases hs
      | onError => rfl
      | @handled _ _ failure => cases failure <;> cases ht
  · rw [hsame]
    exact hs

/-- They end the core when the last of them has returned. -/
theorem onError_done {l : Label} {ending : Ending} (hstep : step cfg s l = some t)
    (hmain : s.main = .idle → s.core = .idle) (hs : s.core.isOnError = true)
    (hundone : s.core.isDone = false) (ht : t.core = .done ending)
    (hkind : ∀ e, ending ≠ .rethrown e) :
    ∃ e, l = .resume .core ∧ ending = .handled e ∧ s.core = .onError e (.ended none) ∧
      t = s.afterOnError e none := by
  have hl : l ≠ .start := by
    rintro rfl
    rw [hmain (start_eq hstep).1] at hs
    cases hs
  rcases isDone_step hstep hl with ⟨rfl, -⟩ | hsame
  · cases State.resumeCore_resumed hstep with
    | before hcore | stage hcore | handler hcore | beforeThrew hcore | bare hcore
    | onion hcore => rw [hcore] at hs; cases hs
    | onError => cases ht
    | @handled err _ failure hcore hnext =>
        cases failure with
        | some e2 => exact absurd (Core.done.inj ht).symm (hkind e2)
        | none =>
            refine ⟨err, rfl, (Core.done.inj ht).symm, ?_, rfl⟩
            rw [hcore, Loop.resume_inr hnext]
  · rw [ht, hundone] at hsame
    cases hsame

/-- The run without the hooks, up to the end of the core. -/
theorem follows (htime : cfg.requestTimeout = false) {ls : List Label}
    (hrun : run (step cfg) (State.init cfg) ls = some s)
    (hwatching : Along (step cfg) Watching (State.init cfg) ls)
    (hundone : s.core.isDone = false) :
    ∃ u, run (step cfg.unhooked) (State.init cfg.unhooked)
        (withoutHooks cfg (State.init cfg) ls) = some u ∧
      if s.core.isOnError then Mirrors s u else u = s := by
  induction ls using List.reverseRecOn generalizing s with
  | nil =>
      obtain rfl := Option.some.inj hrun
      exact ⟨_, rfl, rfl⟩
  | append_singleton ls l ih =>
      obtain ⟨r, hr, hstep⟩ := run_concat_some.1 hrun
      have hfresh := (traced_run hr).trace.fresh
      have hun : Untimed r :=
        run_invariant (fun _ _ _ h => h.step htime) (untimed_init cfg) hr
      have hr_undone : r.core.isDone = false := by
        by_cases hl : l = .start
        · subst hl
          rw [hfresh (start_eq hstep).1]
          rfl
        · rcases isDone_step hstep hl with ⟨-, hr_undone⟩ | hsame
          · exact hr_undone
          · exact hsame.symm.trans hundone
      obtain ⟨u, hu, hfollows⟩ :=
        ih hr (hwatching.of_isPrefix (List.prefix_append ls [l])) hr_undone
      have hlabel := along_iff.1 hwatching ls l r s (List.prefix_refl _) hr hstep
      rw [withoutHooks_concat hr hstep]
      cases hbefore : r.core.isOnError with
      | false =>
          rw [hbefore, if_neg Bool.false_ne_true] at hfollows
          subst hfollows
          cases hafter : s.core.isOnError with
          | false =>
              refine ⟨s, ?_, by simp⟩
              rw [Bool.and_false, if_neg Bool.false_ne_true]
              exact run_concat_some.2 ⟨u, hu, step_unhooked hstep hbefore hafter⟩
          | true =>
              obtain ⟨hl, hmirrors⟩ := mirrors_catch hstep hfresh hbefore hafter
              refine ⟨u, ?_, by simpa using hmirrors⟩
              rw [hl, Bool.and_true, if_pos rfl, List.append_nil]
              exact hu
      | true =>
          rw [hbefore, if_pos rfl] at hfollows
          have hafter := onError_step hstep hfresh hbefore hundone
          rw [hafter]
          cases hl : l.isCore with
          | true =>
              refine ⟨u, ?_, hfollows.coreStep hl hbefore hstep hafter⟩
              rw [Bool.and_true, if_pos rfl, List.append_nil]
              exact hu
          | false =>
              obtain ⟨v, hv, hmirrors⟩ := hfollows.otherStep hun hbefore hl hlabel hstep
              refine ⟨v, ?_, hmirrors⟩
              rw [Bool.false_and, if_neg Bool.false_ne_true]
              exact run_concat_some.2 ⟨u, hu, hv⟩

end Runs

/-- One `onError` hook, which observes. -/
def observedChain : Chain := { bareChain with onError := 1 }

/-- The handler sets a header, and throws an `HttpError` 418 before it has answered. -/
def failing : List Label :=
  [.start, .op .handler (.header "x-step" "1"), .settle .core (.threw (.http 418 "")),
    .resume .core, .settle .core (.returned .nothing), .resume .core, .resume .core]

/-- The handler answers and then throws. -/
def answeredFailing : List Label :=
  [.start, .op .handler (.text "partial" none), .settle .core (.threw .other),
    .resume .core, .settle .core (.returned .nothing), .resume .core, .resume .core]

end Pipeline
end OxideHttp
