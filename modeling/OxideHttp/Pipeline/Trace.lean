import OxideHttp.Pipeline.HooksRun

/-!
# The way of a request (`src/js/pipeline.ts`)

The calls of "before" hooks, middleware and handler, in the order in which they happen.
`route` is what a request calls if nothing stops it; `CoreAt` says, from the program
counter of the core, how far along it the request is.

Results.
* `Trace.step`: every step keeps that.
* `next_cases`: what a call of `next` does.
-/

namespace OxideHttp
namespace Pipeline

open Context

/-! ## The route -/

/-- The functions of the route. -/
def Fn.isRoute : Fn → Bool
  | .before .. | .middleware _ | .handler => true
  | _ => false

/-- Middleware and handler. -/
def Fn.isInner : Fn → Bool
  | .middleware _ | .handler => true
  | _ => false

def stageHooks (chain : Chain) (stage : BeforeStage) : List Fn :=
  (List.range (chain.before stage)).map (Fn.before stage)

def BeforeStage.earlier : BeforeStage → List BeforeStage
  | .onRequest => []
  | .preParsing => [.onRequest]
  | .preValidation => [.onRequest, .preParsing]
  | .preHandler => [.onRequest, .preParsing, .preValidation]

/-- The hooks of the stages before a stage. -/
def hooksBefore (chain : Chain) (stage : BeforeStage) : List Fn :=
  stage.earlier.flatMap (stageHooks chain)

/-- The hooks of `BEFORE_STAGES`, in the order of registration. -/
def beforeHooks (chain : Chain) : List Fn :=
  [.onRequest, .preParsing, .preValidation, .preHandler].flatMap (stageHooks chain)

/-- What `dispatch(i)` calls. -/
def onionCall (chain : Chain) (i : Nat) : Fn :=
  if i < chain.middleware then .middleware i else .handler

def onionCalls (chain : Chain) : List Fn :=
  (List.range (chain.middleware + 1)).map (onionCall chain)

def route (chain : Chain) : List Fn := beforeHooks chain ++ onionCalls chain

/-- The calls of functions of the route so far. -/
def State.calls (s : State) : List Fn := s.log.filter Fn.isRoute

/-- A middleware or the handler has been called. -/
def State.Entered (s : State) : Prop := ∃ f ∈ s.log, f.isInner = true

/-- The "before" hook that was called last has thrown. -/
def State.HookThrew (s : State) : Prop :=
  ∃ stage k e, s.core = .before stage (.hook k (some (.threw e)))

/-- `dispatch(i)`: the error of its guard, or what its call leaves. -/
def State.dispatch (cfg : Config) (s : State) (i : Nat) : Except Thrown State :=
  if i < s.onion.length then .error .other
  else
    .ok
      { s with
        onion := s.onion ++ [.running none]
        log := s.log ++ [onionCall cfg.chain i] }

/-! ## The stages -/

section Route

variable (chain : Chain)

theorem hooksBefore_next {stage later : BeforeStage} (h : stage.next = some later) :
    hooksBefore chain later = hooksBefore chain stage ++ stageHooks chain stage := by
  cases stage <;> cases h <;> simp [hooksBefore, BeforeStage.earlier]

theorem hooksBefore_last {stage : BeforeStage} (h : stage.next = none) :
    beforeHooks chain = hooksBefore chain stage ++ stageHooks chain stage := by
  cases stage <;> cases h
  simp [hooksBefore, beforeHooks, BeforeStage.earlier]

theorem stageHooks_isPrefix (stage : BeforeStage) :
    hooksBefore chain stage ++ stageHooks chain stage <+: beforeHooks chain := by
  cases stage with
  | onRequest => exact ⟨[.preParsing, .preValidation, .preHandler].flatMap (stageHooks chain),
      by simp [hooksBefore, beforeHooks, BeforeStage.earlier]⟩
  | preParsing => exact ⟨[.preValidation, .preHandler].flatMap (stageHooks chain),
      by simp [hooksBefore, beforeHooks, BeforeStage.earlier]⟩
  | preValidation => exact ⟨stageHooks chain .preHandler,
      by simp [hooksBefore, beforeHooks, BeforeStage.earlier]⟩
  | preHandler => exact ⟨[],
      by simp [hooksBefore, beforeHooks, BeforeStage.earlier]⟩

/-- The first hooks of a stage, behind those of the stages before. -/
def hooksThrough (stage : BeforeStage) (k : Nat) : List Fn :=
  hooksBefore chain stage ++ (List.range k).map (Fn.before stage)

theorem hooksThrough_succ (stage : BeforeStage) (k : Nat) :
    hooksThrough chain stage (k + 1) = hooksThrough chain stage k ++ [.before stage k] := by
  simp [hooksThrough, List.range_succ]

theorem hooksThrough_isPrefix {stage : BeforeStage} {k : Nat} (h : k ≤ chain.before stage) :
    hooksThrough chain stage k <+: beforeHooks chain := by
  refine List.IsPrefix.trans ?_ (stageHooks_isPrefix chain stage)
  refine List.prefix_append_right_inj _ |>.2 (List.IsPrefix.map _ ?_)
  exact List.prefix_iff_eq_take.2 (by simp [List.take_range, h])

theorem isInner_of_mem_beforeHooks {f : Fn} (h : f ∈ beforeHooks chain) :
    f.isInner = false := by
  simp only [beforeHooks, stageHooks, List.mem_flatMap, List.mem_map] at h
  obtain ⟨stage, -, k, -, rfl⟩ := h
  rfl

theorem onionCall_isInner (i : Nat) : (onionCall chain i).isInner = true := by
  unfold onionCall
  split <;> rfl

theorem onionCalls_take_succ {m : Nat} (h : m ≤ chain.middleware) :
    (onionCalls chain).take (m + 1) =
      (onionCalls chain).take m ++ [onionCall chain m] := by
  rw [List.take_succ_eq_append_getElem (by simp [onionCalls]; omega)]
  simp [onionCalls]

end Route

/-! ## Steps beside the route -/

/-- A step that calls nothing of the route and leaves the core where it is. -/
structure Beside (s t : State) : Prop where
  calls : t.calls = s.calls
  core : t.core = s.core
  onion : t.onion.length = s.onion.length
  finalized : s.ctx.finalized = true → t.ctx.finalized = true

section Beside

variable {cfg : Config} {s t u : State}

theorem Beside.refl (s : State) : Beside s s := ⟨rfl, rfl, rfl, id⟩

theorem Beside.trans (h : Beside s t) (h' : Beside t u) : Beside s u where
  calls := h'.calls.trans h.calls
  core := h'.core.trans h.core
  onion := h'.onion.trans h.onion
  finalized hs := h'.finalized (h.finalized hs)

/-- The calls of a loop over other hooks are not on the route. -/
theorem calls_append {fns : List Fn} (h : t.log = s.log ++ fns)
    (hfns : ∀ f ∈ fns, f.isRoute = false) : t.calls = s.calls := by
  have hnone : fns.filter Fn.isRoute = [] := by
    rw [List.filter_eq_nil_iff]
    intro f hf
    rw [hfns f hf]
    exact Bool.false_ne_true
  rw [State.calls, h, List.filter_append, hnone, List.append_nil, State.calls]

theorem Loop.mem_called {fn : Nat → Fn} {loop : Loop} {f : Fn} (h : f ∈ loop.called fn) :
    ∃ k, f = fn k := by
  cases loop with
  | ended failure => cases h
  | hook k call =>
      cases call with
      | some out => cases h
      | none => exact ⟨k, List.mem_singleton.1 h⟩

theorem calls_called {fn : Nat → Fn} {loop : Loop} (h : t.log = s.log ++ loop.called fn)
    (hfn : ∀ k, (fn k).isRoute = false) : t.calls = s.calls := by
  refine calls_append h fun f hf => ?_
  obtain ⟨k, rfl⟩ := Loop.mem_called hf
  exact hfn k

theorem beside_toMain (s : State) (pc : Loop → Main) {fn : Nat → Fn} (loop : Loop)
    (hfn : ∀ k, (fn k).isRoute = false) : Beside s (s.toMain pc fn loop) :=
  ⟨calls_called rfl hfn, rfl, rfl, id⟩

theorem beside_sendOff (cfg : Config) (s : State) : Beside s (s.sendOff cfg) := by
  unfold State.sendOff
  split
  case isTrue =>
    unfold State.afterSend
    split
    case isTrue =>
      exact ⟨calls_called rfl fun _ => rfl, rfl, rfl, id⟩
    case isFalse => exact ⟨rfl, rfl, rfl, id⟩
  case isFalse => exact ⟨rfl, rfl, rfl, id⟩

theorem beside_enterOnSend (cfg : Config) (s : State) : Beside s (s.enterOnSend cfg) := by
  unfold State.enterOnSend
  split
  case isTrue => exact beside_toMain s _ _ fun _ => rfl
  case isFalse => exact beside_sendOff cfg s

theorem beside_enterPreSerialization (cfg : Config) (s : State) :
    Beside s (s.enterPreSerialization cfg) := by
  unfold State.enterPreSerialization
  split
  case isTrue => exact beside_toMain s _ _ fun _ => rfl
  case isFalse => exact beside_enterOnSend cfg s

theorem beside_lastDefence (cfg : Config) (s : State) (err : Thrown) :
    Beside s (s.lastDefence cfg err) := by
  unfold State.lastDefence
  refine Beside.trans ?_ (beside_sendOff cfg _)
  split
  case isTrue => exact Beside.refl s
  case isFalse hopen => exact ⟨rfl, rfl, rfl, fun hs => absurd hs hopen⟩

theorem beside_resumeMain (h : s.resumeMain cfg = some t) : Beside s t := by
  cases State.resumeMain_resumed h with
  | race => exact beside_enterPreSerialization cfg s
  | preSerialization | onSend | onResponse => exact beside_toMain s _ _ fun _ => rfl
  | preSerialized => exact beside_enterOnSend cfg s
  | onSent => exact beside_sendOff cfg s
  | preSerializationThrew | onSendThrew => exact beside_lastDefence cfg s _
  | responded | guard => exact ⟨rfl, rfl, rfl, id⟩

theorem beside_resumeTask {i : Nat} (h : s.resumeTask cfg i = some t) : Beside s t := by
  obtain ⟨hframe, hcore, hlength⟩ := State.resumeTask_frame h
  refine ⟨?_, hcore, hlength, hframe.finalized⟩
  obtain ⟨out, _, ⟨_, failure, rfl⟩ | ⟨_, rfl⟩⟩ := State.resumeTask_eq h
  · rfl
  · cases out <;> rfl

theorem waitAbort_calls {aborted : Bool} (h : s.waitAbort cfg aborted = some t) :
    t.calls = s.calls := by
  unfold State.waitAbort at h
  split at h
  case h_1 =>
    split at h <;> obtain rfl := Option.some.inj h
    · rfl
    · exact calls_called rfl fun _ => rfl
  case h_2 => cases h

theorem resumeWatcher_calls (h : s.resumeWatcher cfg = some t) : t.calls = s.calls := by
  unfold State.resumeWatcher at h
  split at h
  case h_1 =>
    obtain ⟨next, _, rfl⟩ := Option.map_eq_some_iff.1 h
    split
    case h_1 => exact calls_called rfl fun _ => rfl
    case h_2 => rfl
  case h_2 => cases h

/-- The label runs the core, or calls `next`. -/
def Label.isWalk : Label → Bool
  | .start | .next _ | .settle .core _ | .resume .core => true
  | _ => false

theorem settle_core_same {out : Outcome} {strand : Strand} (hstrand : strand ≠ .core)
    (h : s.settle out strand = some t) : t.core = s.core := by
  cases State.settle_settled h with
  | before | bare | onError => exact absurd rfl hstrand
  | task | onTimeout | onAbort | preSerialization | onSend | onResponse => rfl

theorem beside_step {l : Label} (hl : l.isWalk = false) (h : step cfg s l = some t) :
    Beside s t := by
  cases l with
  | start | next => cases hl
  | op f o =>
      obtain ⟨_, rfl⟩ := op_eq h
      exact ⟨rfl, rfl, rfl, apply_finalized o⟩
  | settle strand out =>
      have hmove := State.settle_move h
      refine ⟨congrArg (List.filter Fn.isRoute) hmove.log, settle_core_same ?_ h, hmove.onion,
        fun hs => hmove.ctx ▸ hs⟩
      rintro rfl
      cases hl
  | resume strand =>
      cases strand with
      | core => cases hl
      | main => exact beside_resumeMain h
      | task i => exact beside_resumeTask h
      | watcher =>
          have hmove := State.resumeWatcher_move h
          exact ⟨resumeWatcher_calls h, hmove.core, congrArg List.length hmove.onion,
            fun hs => (finalized_of_view hmove.view).trans hs⟩
      | timer =>
          obtain ⟨_, _, ⟨loop, _, rfl⟩ | ⟨failure, _, rfl⟩⟩ := State.resumeTimer_eq h
          · exact ⟨calls_called rfl fun _ => rfl, rfl, rfl, id⟩
          · refine ⟨rfl, rfl, rfl, fun hs => ?_⟩
            simp [State.latch, State.timedOut, hs]
  | fire =>
      obtain ⟨_, _, rfl⟩ := State.fire_eq h
      exact ⟨calls_called rfl fun _ => rfl, rfl, rfl, id⟩
  | waitAbort aborted =>
      have hmove := State.waitAbort_move h
      exact ⟨waitAbort_calls h, hmove.core, congrArg List.length hmove.onion,
        fun hs => (finalized_of_view hmove.view).trans hs⟩

end Beside

/-! ## Where the core is -/

/-- The request is among the first `m` calls of the onion. -/
def Inner (chain : Chain) (s : State) : Prop :=
  ∃ m, 0 < m ∧ m ≤ chain.middleware + 1 ∧
    s.calls = beforeHooks chain ++ (onionCalls chain).take m ∧
      (s.onion.length = m ∨ s.onion = [] ∧ chain.middleware = 0)

/-- The request has ended among the "before" hooks, with a response or an exception. -/
structure Stopped (chain : Chain) (threw : Prop) (s : State) : Prop where
  onion : s.onion = []
  calls : s.calls <+: beforeHooks chain
  cause : s.ctx.finalized = true ∨ threw

/-- The loop of a stage. -/
def Walking (chain : Chain) (threw : Prop) (stage : BeforeStage) (s : State) : Loop → Prop
  | .hook k _ => k < chain.before stage ∧ s.calls = hooksThrough chain stage (k + 1)
  | .ended none =>
      s.calls = hooksThrough chain stage (chain.before stage) ∨ Stopped chain False s
  | .ended (some _) => Stopped chain threw s

/-- Where the request is on its route; `threw` says that a "before" hook has thrown. -/
def CoreAt (cfg : Config) (threw : Prop) (s : State) : Core → Prop
  | .idle => s = State.init cfg
  | .before stage loop => s.onion = [] ∧ Walking cfg.chain threw stage s loop
  | .bare _ => s.onion = [] ∧ Inner cfg.chain s
  | .onion => s.onion ≠ [] ∧ Inner cfg.chain s
  | .onError .. | .done _ => Stopped cfg.chain threw s ∨ Inner cfg.chain s

structure Trace (cfg : Config) (threw : Prop) (s : State) : Prop where
  core : CoreAt cfg threw s s.core
  fresh : s.main = .idle → s.core = .idle

section Core

variable {cfg : Config} {s t : State} {threw : Prop}

theorem Inner.congr {chain : Chain} (h : Inner chain s) (hcalls : t.calls = s.calls)
    (honion : t.onion.length = s.onion.length) : Inner chain t := by
  obtain ⟨m, hpos, hle, hm, hlength⟩ := h
  refine ⟨m, hpos, hle, hcalls.trans hm, ?_⟩
  rw [← List.length_eq_zero_iff, honion, List.length_eq_zero_iff]
  exact hlength

theorem Stopped.congr {chain : Chain} (h : Stopped chain threw s) (hcalls : t.calls = s.calls)
    (honion : t.onion.length = s.onion.length)
    (hfinal : s.ctx.finalized = true → t.ctx.finalized = true) : Stopped chain threw t where
  onion := List.length_eq_zero_iff.1 (honion.trans (congrArg List.length h.onion))
  calls := hcalls ▸ h.calls
  cause := h.cause.imp_left hfinal

theorem CoreAt.beside {core : Core} (h : CoreAt cfg threw s core) (hidle : core ≠ .idle)
    (hcalls : t.calls = s.calls) (honion : t.onion.length = s.onion.length)
    (hfinal : s.ctx.finalized = true → t.ctx.finalized = true) : CoreAt cfg threw t core := by
  have hnil : s.onion = [] ↔ t.onion = [] := by
    rw [← List.length_eq_zero_iff, ← honion, List.length_eq_zero_iff]
  cases core with
  | idle => exact absurd rfl hidle
  | before stage loop =>
      refine ⟨hnil.1 h.1, ?_⟩
      have hloop := h.2
      cases loop with
      | hook k call => exact ⟨hloop.1, hcalls.trans hloop.2⟩
      | ended failure =>
          cases failure with
          | none =>
              exact hloop.imp hcalls.trans fun hstop => hstop.congr hcalls honion hfinal
          | some e => exact Stopped.congr hloop hcalls honion hfinal
  | bare call => exact ⟨hnil.1 h.1, h.2.congr hcalls honion⟩
  | onion => exact ⟨fun ht => h.1 (hnil.2 ht), h.2.congr hcalls honion⟩
  | onError | done =>
      exact h.imp (fun hstop => hstop.congr hcalls honion hfinal)
        fun hinner => hinner.congr hcalls honion

/-- An exception that is known stays known. -/
theorem CoreAt.mono {threw' : Prop} (h : CoreAt cfg threw s s.core) (himp : threw → threw') :
    CoreAt cfg threw' s s.core := by
  revert h
  cases s.core with
  | idle | bare | onion => exact id
  | before stage loop =>
      cases loop with
      | hook k call => exact id
      | ended failure =>
          cases failure with
          | none => exact id
          | some e =>
              rintro ⟨honion, hstop⟩
              exact ⟨honion, hstop.onion, hstop.calls, hstop.cause.imp_right himp⟩
  | onError | done =>
      exact Or.imp_left fun hstop => ⟨hstop.onion, hstop.calls, hstop.cause.imp_right himp⟩

theorem handleError_onion (cfg : Config) (s : State) (err : Thrown) :
    (s.handleError cfg err).onion = s.onion := by
  unfold State.handleError
  split <;> rfl

/-- The core handles an exception. -/
theorem handleError_at (err : Thrown) (h : Stopped cfg.chain threw s ∨ Inner cfg.chain s) :
    CoreAt cfg threw (s.handleError cfg err) (s.handleError cfg err).core := by
  unfold State.handleError
  split
  case isTrue =>
    refine h.imp (fun hstop => ?_) fun hinner => hinner.congr rfl rfl
    exact hstop.congr rfl rfl fun hs => defaultError_finalized err hs
  case isFalse =>
    have hcalls : (State.toCore { s with ctx := { s.ctx with error := some err } }
        (.onError err) .onError (.start cfg.chain.onError)).calls = s.calls :=
      calls_called rfl fun _ => rfl
    exact h.imp (fun hstop => hstop.congr hcalls rfl id) fun hinner => hinner.congr hcalls rfl

theorem afterOnError_at (err : Thrown) (failure : Option Thrown)
    (h : Stopped cfg.chain threw s ∨ Inner cfg.chain s) :
    CoreAt cfg threw (s.afterOnError err failure) (s.afterOnError err failure).core := by
  cases failure with
  | none =>
      refine h.imp (fun hstop => hstop.congr rfl rfl fun hs => ?_)
        fun hinner => hinner.congr rfl rfl
      simp [State.afterOnError, hs]
  | some e2 =>
      refine h.imp (fun hstop => hstop.congr rfl rfl fun hs => ?_)
        fun hinner => hinner.congr rfl rfl
      exact defaultError_finalized e2 hs

/-- The first call of the onion. -/
theorem inner_one (h : s.calls = beforeHooks cfg.chain)
    (hlog : t.log = s.log ++ [onionCall cfg.chain 0])
    (honion : t.onion.length = 1 ∨ t.onion = [] ∧ cfg.chain.middleware = 0) :
    Inner cfg.chain t := by
  refine ⟨1, Nat.one_pos, Nat.le_add_left .., ?_, honion⟩
  have hroute : (onionCall cfg.chain 0).isRoute = true := by
    unfold onionCall
    split <;> rfl
  rw [onionCalls_take_succ cfg.chain (Nat.zero_le _), State.calls, hlog, List.filter_append,
    List.filter_cons_of_pos hroute, ← h]
  rfl

/-- The end of the "before" stages. -/
theorem enterHandler_at (honion : s.onion = [])
    (h : s.calls = beforeHooks cfg.chain ∨ Stopped cfg.chain False s) :
    CoreAt cfg threw (s.enterHandler cfg) (s.enterHandler cfg).core := by
  unfold State.enterHandler
  split
  case isTrue hfinal =>
    refine Or.inl ⟨honion, ?_, Or.inl hfinal⟩
    rcases h with hcalls | hstop
    · exact hcalls ▸ List.prefix_rfl
    · exact hstop.calls
  case isFalse hopen =>
    have hcalls := h.resolve_right fun hstop => hstop.cause.elim hopen id
    split
    case isTrue hbare =>
      refine ⟨honion, inner_one hcalls ?_ (Or.inr ⟨honion, hbare⟩)⟩
      rw [onionCall, if_neg (Nat.not_lt.2 (Nat.le_of_eq hbare))]
    case isFalse hmiddleware =>
      refine ⟨List.cons_ne_nil _ _, inner_one hcalls ?_ (Or.inl rfl)⟩
      rw [onionCall, if_pos (Nat.pos_of_ne_zero hmiddleware)]

/-- A loop over the hooks of a stage is entered or goes on. -/
theorem toCore_at {stage : BeforeStage} {loop : Loop} (honion : s.onion = [])
    (h : Walking cfg.chain threw stage (s.toCore (.before stage) (.before stage) loop) loop) :
    CoreAt cfg threw (s.toCore (.before stage) (.before stage) loop)
      (s.toCore (.before stage) (.before stage) loop).core :=
  ⟨honion, h⟩

theorem calls_hook (s : State) (stage : BeforeStage) (k : Nat) :
    (s.toCore (.before stage) (.before stage) (.hook k none)).calls =
      s.calls ++ [.before stage k] := List.filter_append ..

theorem calls_ended (s : State) (stage : BeforeStage) (failure : Option Thrown) :
    (s.toCore (.before stage) (.before stage) (.ended failure)).calls = s.calls :=
  calls_append rfl nofun

theorem enterStage_at {stage : BeforeStage} (honion : s.onion = [])
    (h : s.calls = hooksBefore cfg.chain stage ∨ Stopped cfg.chain False s) :
    CoreAt cfg threw (s.enterStage cfg stage) (s.enterStage cfg stage).core := by
  unfold State.enterStage
  split
  case isTrue hfinal =>
    refine enterHandler_at honion (Or.inr ⟨honion, ?_, Or.inl hfinal⟩)
    rcases h with hcalls | hstop
    · rw [hcalls]
      exact (List.prefix_append _ _).trans (stageHooks_isPrefix cfg.chain stage)
    · exact hstop.calls
  case isFalse hopen =>
    have hcalls := h.resolve_right fun hstop => hstop.cause.elim hopen id
    refine toCore_at honion ?_
    unfold Loop.start
    split
    case isTrue hsome =>
      refine ⟨hsome, ?_⟩
      rw [calls_hook, hcalls, hooksThrough_succ, hooksThrough]
      simp
    case isFalse hnone =>
      refine Or.inl ?_
      have hzero : cfg.chain.before stage = 0 := Nat.eq_zero_of_not_pos hnone
      rw [hzero, hooksThrough, List.range_zero, List.map_nil, List.append_nil, ← hcalls]
      exact calls_ended s stage none

theorem hasBefore_eq_false {chain : Chain} (h : ¬ chain.hasBefore = true) :
    beforeHooks chain = [] := by
  simp only [Chain.hasBefore, Bool.or_eq_true, decide_eq_true_eq, not_or, Nat.not_lt,
    Nat.le_zero] at h
  obtain ⟨⟨⟨hrequest, hparsing⟩, hvalidation⟩, hhandler⟩ := h
  simp [beforeHooks, stageHooks, hrequest, hparsing, hvalidation, hhandler]

theorem runCore_at (honion : s.onion = []) (hcalls : s.calls = []) :
    CoreAt cfg threw (s.runCore cfg) (s.runCore cfg).core := by
  unfold State.runCore
  split
  case isTrue => exact enterStage_at honion (Or.inl hcalls)
  case isFalse hnone =>
    exact enterHandler_at honion (Or.inl (hcalls.trans (hasBefore_eq_false hnone).symm))

/-- After a settled hook: an exception ends the route, a response ends it too, and otherwise
the next hook is called. -/
theorem after_at {stage : BeforeStage} {k : Nat} {out : Outcome} (honion : s.onion = [])
    (hk : k < cfg.chain.before stage) (hcalls : s.calls = hooksThrough cfg.chain stage (k + 1))
    (hthrew : ∀ e, out = .threw e → threw) :
    Walking cfg.chain threw stage
      (s.toCore (.before stage) (.before stage)
        (.after (cfg.chain.before stage) s.ctx.finalized k out))
      (.after (cfg.chain.before stage) s.ctx.finalized k out) := by
  have hfront : s.calls <+: beforeHooks cfg.chain := by
    rw [hcalls]
    exact hooksThrough_isPrefix cfg.chain hk
  cases out with
  | threw e =>
      refine ⟨honion, ?_, Or.inr (hthrew e rfl)⟩
      exact (calls_ended s stage (some e)).symm ▸ hfront
  | returned v =>
      simp only [Loop.after]
      split
      case isTrue hends =>
        have hsame := calls_ended s stage none
        rw [Bool.or_eq_true, decide_eq_true_eq] at hends
        rcases hends with hfinal | hlast
        · exact Or.inr ⟨honion, hsame.symm ▸ hfront, Or.inl hfinal⟩
        · refine Or.inl (hsame.trans (hcalls.trans ?_))
          rw [Nat.le_antisymm hlast hk]
      case isFalse hgoes =>
        rw [Bool.or_eq_true, decide_eq_true_eq, not_or, Nat.not_le] at hgoes
        refine ⟨hgoes.2, ?_⟩
        rw [calls_hook, hcalls, hooksThrough_succ cfg.chain stage (k + 1)]

/-- The core ends without an exception, or handles one. -/
theorem tried_at (failure : Option Thrown) (h : Inner cfg.chain s) :
    CoreAt cfg threw (State.tried cfg (s, failure)) (State.tried cfg (s, failure)).core := by
  cases failure with
  | none => exact Or.inr (h.congr rfl rfl)
  | some e => exact handleError_at e (Or.inr h)

theorem applied_beside (s : State) (out : Outcome) : Beside s (s.applied out).1 := by
  have hframe := State.applied_frame s out
  cases out with
  | threw e => exact Beside.refl s
  | returned v => exact ⟨rfl, rfl, rfl, hframe.finalized⟩

theorem resumeCore_at (h : CoreAt cfg threw s s.core) (hthrew : s.HookThrew → threw)
    (hresume : s.resumeCore cfg = some t) : CoreAt cfg threw t t.core := by
  cases State.resumeCore_resumed hresume with
  | @before stage _ _ hcore hnext =>
      rw [hcore] at h
      obtain ⟨honion, hloop⟩ := h
      obtain ⟨k, out, rfl, rfl⟩ := Loop.resume_inl hnext
      refine toCore_at honion (after_at honion hloop.1 hloop.2 fun e he => hthrew ?_)
      exact ⟨stage, k, e, he ▸ hcore⟩
  | stage hcore hnext hlater =>
      rw [hcore] at h
      obtain ⟨honion, hloop⟩ := h
      obtain rfl := Loop.resume_inr hnext
      refine enterStage_at honion (hloop.imp_left fun hcalls => ?_)
      rw [hcalls, hooksBefore_next cfg.chain hlater]
      rfl
  | handler hcore hnext hlast =>
      rw [hcore] at h
      obtain ⟨honion, hloop⟩ := h
      obtain rfl := Loop.resume_inr hnext
      refine enterHandler_at honion (hloop.imp_left fun hcalls => ?_)
      rw [hcalls, hooksBefore_last cfg.chain hlast]
      rfl
  | beforeThrew hcore hnext =>
      rw [hcore] at h
      obtain ⟨honion, hloop⟩ := h
      obtain rfl := Loop.resume_inr hnext
      exact handleError_at _ (Or.inl hloop)
  | @bare out hcore =>
      rw [hcore] at h
      have hbeside := applied_beside s out
      exact tried_at _ (h.2.congr hbeside.calls hbeside.onion)
  | onion hcore =>
      rw [hcore] at h
      exact tried_at _ h.2
  | @onError err _ next hcore =>
      rw [hcore] at h
      have hcalls : (s.toCore (.onError err) .onError next).calls = s.calls :=
        calls_called rfl fun _ => rfl
      exact h.imp (fun hstop => hstop.congr hcalls rfl id) fun hinner => hinner.congr hcalls rfl
  | handled hcore =>
      rw [hcore] at h
      exact afterOnError_at _ _ h

theorem settleCore_at {out : Outcome} (h : CoreAt cfg threw s s.core)
    (hsettle : s.settle out .core = some t) : CoreAt cfg threw t t.core := by
  cases State.settle_settled hsettle with
  | before hcore =>
      rw [hcore] at h
      exact h
  | bare hcore =>
      rw [hcore] at h
      exact ⟨h.1, h.2.congr rfl rfl⟩
  | onError hcore =>
      rw [hcore] at h
      exact h.imp (fun hstop => hstop.congr rfl rfl id) fun hinner => hinner.congr rfl rfl

/-! ## Calls of `next` -/

/-- `next` is `dispatch` at the index behind that of its middleware. -/
theorem next_eq_dispatch (cfg : Config) (s : State) (i : Nat) :
    s.next cfg i =
      if i < s.onion.length ∧ i < cfg.chain.middleware then
        some (match s.dispatch cfg (i + 1) with
          | .ok t => t
          | .error _ => s)
      else none := by
  unfold State.next State.dispatch
  split
  case isTrue => split <;> rfl
  case isFalse => rfl

/-- A middleware that runs has an onion around it. -/
theorem Trace.inner (h : Trace cfg threw s) (honion : s.onion ≠ []) :
    s.core ≠ .idle ∧ Inner cfg.chain s := by
  have hcore := h.core
  cases hpc : s.core with
  | idle =>
      rw [hpc] at hcore
      exact absurd (congrArg State.onion hcore) honion
  | before stage loop =>
      rw [hpc] at hcore
      exact absurd hcore.1 honion
  | bare call =>
      rw [hpc] at hcore
      exact absurd hcore.1 honion
  | onion =>
      rw [hpc] at hcore
      exact ⟨nofun, hcore.2⟩
  | onError | done =>
      rw [hpc] at hcore
      exact ⟨nofun, hcore.resolve_left fun hstop => honion hstop.onion⟩

/-- The first call of `next` by a middleware calls the next function; every other is
refused. -/
theorem next_cases {i : Nat} (hnext : s.next cfg i = some t) :
    i < cfg.chain.middleware ∧
      (i + 1 < s.onion.length ∧ s.dispatch cfg (i + 1) = .error .other ∧ t = s ∨
        s.onion.length = i + 1 ∧ s.dispatch cfg (i + 1) = .ok t ∧
          t.onion.length = i + 2 ∧ t.log = s.log ++ [onionCall cfg.chain (i + 1)]) := by
  rw [next_eq_dispatch] at hnext
  split at hnext
  case isFalse => cases hnext
  case isTrue hi =>
    refine ⟨hi.2, ?_⟩
    by_cases hagain : i + 1 < s.onion.length
    · have herror : s.dispatch cfg (i + 1) = .error .other := if_pos hagain
      rw [herror] at hnext
      exact Or.inl ⟨hagain, herror, (Option.some.inj hnext).symm⟩
    · have hlength : s.onion.length = i + 1 := by omega
      have hok : s.dispatch cfg (i + 1) = .ok _ := if_neg hagain
      rw [hok] at hnext
      obtain rfl := Option.some.inj hnext
      refine Or.inr ⟨hlength, hok, ?_, rfl⟩
      rw [List.length_append, hlength]
      rfl

theorem Inner.next {i : Nat} (h : Inner cfg.chain s) (hi : i < cfg.chain.middleware)
    (hlength : s.onion.length = i + 1) (honion : t.onion.length = i + 2)
    (hlog : t.log = s.log ++ [onionCall cfg.chain (i + 1)]) : Inner cfg.chain t := by
  obtain ⟨m, -, -, hcalls, hm⟩ := h
  have hsome : s.onion ≠ [] := List.ne_nil_of_length_eq_add_one hlength
  obtain rfl : i + 1 = m := hlength.symm.trans (hm.resolve_right fun hnil => hsome hnil.1)
  have hroute : (onionCall cfg.chain (i + 1)).isRoute = true := by
    unfold onionCall
    split <;> rfl
  refine ⟨i + 2, Nat.succ_pos _, Nat.succ_le_succ hi, ?_, Or.inl honion⟩
  rw [onionCalls_take_succ cfg.chain hi, ← List.append_assoc, ← hcalls, State.calls, hlog,
    List.filter_append, List.filter_cons_of_pos hroute]
  rfl

theorem Trace.next {i : Nat} (h : Trace cfg threw s) (hnext : s.next cfg i = some t) :
    CoreAt cfg threw t t.core := by
  obtain ⟨hi, ⟨-, -, rfl⟩ | ⟨hlength, -, honion, hlog⟩⟩ := next_cases hnext
  · exact h.core
  · have hsome : s.onion ≠ [] := List.ne_nil_of_length_eq_add_one hlength
    have hinner := (h.inner hsome).2.next hi hlength honion hlog
    have hcore := h.core
    rw [(State.next_frame hnext).2.2.1]
    cases hpc : s.core with
    | idle => exact absurd hpc (h.inner hsome).1
    | before stage loop =>
        rw [hpc] at hcore
        exact absurd hcore.1 hsome
    | bare call =>
        rw [hpc] at hcore
        exact absurd hcore.1 hsome
    | onion => exact ⟨List.ne_nil_of_length_eq_add_one honion, hinner⟩
    | onError | done => exact Or.inr hinner

/-! ## Steps and runs -/

/-- Nothing happens before the start. -/
theorem init_step {l : Label} (h : step cfg (State.init cfg) l = some t) : l = .start := by
  cases l with
  | start => rfl
  | op f o => cases h
  | next i =>
      rw [step, next_eq_dispatch, if_neg] at h
      · cases h
      · exact fun hi => Nat.not_lt_zero i hi.1
  | settle strand out => cases strand <;> cases h
  | resume strand => cases strand <;> cases h
  | fire => cases h
  | waitAbort aborted => cases h

theorem main_step {l : Label} (hmain : s.main ≠ .idle) (h : step cfg s l = some t) :
    t.main ≠ .idle := by
  cases hl : l.isMain with
  | false => exact (step_aside hl h).2 ▸ hmain
  | true =>
      cases l with
      | op | next | fire | waitAbort => cases hl
      | start => exact absurd (start_eq h).1 hmain
      | settle strand out =>
          cases strand with
          | core | task | timer | watcher => cases hl
          | main =>
              obtain ⟨k, ⟨_, rfl⟩ | ⟨_, rfl⟩ | ⟨_, rfl⟩⟩ := settle_main_eq h
              · nofun
              · nofun
              · nofun
      | resume strand =>
          cases strand with
          | core | task | timer | watcher => cases hl
          | main =>
              have hafter := (State.resumeMain_move h).after
              intro hidle
              rw [hidle] at hafter
              cases hafter

theorem trace_init (cfg : Config) : Trace cfg threw (State.init cfg) := ⟨rfl, fun _ => rfl⟩

theorem Trace.step {l : Label} (h : Trace cfg threw s) (hthrew : s.HookThrew → threw)
    (hstep : step cfg s l = some t) : Trace cfg threw t := by
  by_cases hidle : s.core = .idle
  · have hinit : s = State.init cfg := by
      have hcore := h.core
      rw [hidle] at hcore
      exact hcore
    subst hinit
    obtain rfl := init_step hstep
    obtain ⟨-, rfl⟩ := start_eq hstep
    refine ⟨runCore_at rfl rfl, fun hmain => ?_⟩
    rw [(State.runCore_move cfg ((State.init cfg).launch cfg)).main] at hmain
    cases hmain
  · have hmain := main_step (fun hs => hidle (h.fresh hs)) hstep
    refine ⟨?_, fun ht => absurd ht hmain⟩
    cases hl : l.isWalk with
    | false =>
        have hbeside := beside_step hl hstep
        rw [hbeside.core]
        exact h.core.beside hidle hbeside.calls hbeside.onion hbeside.finalized
    | true =>
        cases l with
        | op | fire | waitAbort => cases hl
        | start => exact absurd (h.fresh (start_eq hstep).1) hidle
        | next i => exact h.next hstep
        | settle strand out =>
            cases strand with
            | main | task | timer | watcher => cases hl
            | core => exact settleCore_at h.core hstep
        | resume strand =>
            cases strand with
            | main | task | timer | watcher => cases hl
            | core => exact resumeCore_at h.core hthrew hstep

end Core

end Pipeline
end OxideHttp
